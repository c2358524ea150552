import Zlvm.Isa.Writes

/-!
# The routines of the test program

`test.asm` is a program of four routines.  Here is what three of them do, wherever in memory they lie
and whatever machine calls them; the fourth one halts.

* `addUntilCarry` — adds `$a0` until a sum has no room in a word; **`addUntilCarry_returns`** and
  **`addUntilCarry_endless`** say when it returns.
* `printString` — prints the characters up to a zero byte; **`printString_returns`**.
* `printLine` — calls `printString` and prints a line break; **`printLine_returns`**.
-/

namespace Zlvm

open Buffer VirtualMachine Hoare IsaMachine

namespace Register

/-- `R_T0` -/
def t0 : Register := ⟨10, by decide⟩
/-- `R_T2` -/
def t2 : Register := ⟨12, by decide⟩

end Register

/-- A routine has returned: control is back at `$lp`, and of the registers only some differ. -/
structure Returned (changed : List Register) (caller m : IsaMachine) : Prop where
  keeps : Keeps (Register.pc :: changed) caller m
  pc : m.registers Register.pc = caller.registers Register.lp

/-- The address of an instruction of a routine. -/
theorem toNat_target {base : Word} {offset : Word} (h : base.toNat + offset.toNat < 2 ^ 32) :
    (base + offset).toNat = base.toNat + offset.toNat := by
  rw [UInt32.toNat_add, Nat.mod_eq_of_lt h]

/-! ## Adding until a carry -/

/-- `add_until_carry` -/
def addUntilCarry (base : Word) : List Instruction :=
  [Opcode.movr.instruction .unconditional Register.v0 Register.a0 0,
   Opcode.addr.instruction .unconditional Register.v0 Register.a0 0,
   Opcode.jmp.instruction .carryClear Register.zero Register.zero (base + 8),
   Opcode.ret.instruction .unconditional Register.zero Register.zero 0]

section AddUntilCarry

variable {text : Text} {base : Word} {caller m : IsaMachine}

/-- The head of the loop of `add_until_carry`. -/
structure AddLoop (text : Text) (base : Word) (caller m : IsaMachine) : Prop where
  stands : m.At text (base.toNat + 8)
  keeps : Keeps [Register.pc, Register.v0] caller m
  host : m.host = caller.host

/-- The first instruction leads to the head of the loop. -/
theorem addUntilCarry_enters (hcaller : caller.At text base.toNat)
    (htext : listing base.toNat (addUntilCarry base) ≤ text) :
    ∃ m, Reaches caller m ∧ AddLoop text base caller m ∧
      m.registers Register.v0 = caller.registers Register.a0 := by
  have hret := hcaller.holds.reachable (htext _ _ ⟨3, rfl, rfl⟩)
  simp only [instructionSize] at hret
  obtain ⟨m, hgoes, hhost, hv0⟩ := hcaller.move rfl (htext _ _ ⟨0, rfl, rfl⟩) (by decide)
    (fun _ => by decide) (by omega)
  exact ⟨m, .single hgoes.step, ⟨hgoes.stands, hgoes.keeps, hhost⟩, hv0⟩

/-- **A pass** adds once more, and leaves the loop with a carry. -/
theorem AddLoop.pass (h : AddLoop text base caller m)
    (htext : listing base.toNat (addUntilCarry base) ≤ text) :
    ∃ m', Reaches m m' ∧ m'.host = caller.host ∧
      (m'.registers Register.v0).toNat = ((m.registers Register.v0).toNat
        + (caller.registers Register.a0).toNat) % 2 ^ 32 ∧
      if (m.registers Register.v0).toNat + (caller.registers Register.a0).toNat < 2 ^ 32
        then AddLoop text base caller m' else Returned [Register.v0] caller m' := by
  have hreach := h.stands.holds.reachable (htext _ _ ⟨3, rfl, rfl⟩)
  simp only [instructionSize] at hreach
  have ha0 := h.keeps.registers Register.a0 (by decide) (by decide)
  obtain ⟨m₁, hfirst, hhost₁, hsum, hflags⟩ := h.stands.compute rfl rfl (htext _ _ ⟨1, rfl, rfl⟩)
    (by decide) (fun _ => by decide) (by omega)
  have hv0 : (m₁.registers Register.v0).toNat = ((m.registers Register.v0).toNat
      + (caller.registers Register.a0).toNat) % 2 ^ 32 := by
    rw [hsum, toNat_sum, IsaMachine.operand, ha0]
  have hcarry : m₁.cpsr.C = decide (2 ^ 32 ≤ (m.registers Register.v0).toNat
      + (caller.registers Register.a0).toNat) := by
    rw [hflags, ← ha0]
    exact exactFlags_sum_C _ _
  have hjmp := htext _ _ ⟨2, rfl, rfl⟩
  split
  · -- back to the head of the loop
    rename_i hroom
    have hclear : Condition.carryClear.holds m₁.cpsr = true := by
      rw [Condition.holds, hcarry, decide_eq_false (by omega)]
      rfl
    obtain ⟨m₂, hsecond, hhost₂⟩ := hfirst.stands.jmp hjmp hclear
    refine ⟨m₂, .tail (.single hfirst.step) hsecond.step, by rw [hhost₂, hhost₁, h.host], ?_, ?_⟩
    · rw [hsecond.keeps.registers _ (by decide) (by decide), hv0]
    · have htarget : (base + 8).toNat = base.toNat + 8 :=
        toNat_target (by simp only [UInt32.reduceToNat]; omega)
      refine ⟨htarget ▸ hsecond.stands, ?_, by rw [hhost₂, hhost₁, h.host]⟩
      exact (h.keeps.trans hfirst.keeps).trans (hsecond.keeps.mono (by simp))
  · -- a carry
    rename_i hroom
    have hset : Condition.carryClear.holds m₁.cpsr = false := by
      rw [Condition.holds, hcarry, decide_eq_true (by omega)]
      rfl
    obtain ⟨m₂, hsecond, hhost₂⟩ := hfirst.stands.skip hjmp hset (by omega)
    obtain ⟨m₃, hthird, hhost₃, hpc⟩ := hsecond.stands.ret (htext _ _ ⟨3, rfl, rfl⟩)
    have hkeeps₂ : Keeps [Register.pc, Register.v0] caller m₂ :=
      (h.keeps.trans hfirst.keeps).trans (hsecond.keeps.mono (by simp))
    refine ⟨m₃, .tail (.tail (.single hfirst.step) hsecond.step) hthird.step,
      by rw [hhost₃, hhost₂, hhost₁, h.host], ?_, hkeeps₂.trans (hthird.keeps.mono (by simp)), ?_⟩
    · rw [hthird.keeps.registers _ (by decide) (by decide),
        hsecond.keeps.registers _ (by decide) (by decide), hv0]
    · rw [hpc, hkeeps₂.registers _ (by decide) (by decide)]

/-- **`add_until_carry` returns** if `$a0` is not zero.  Then `$v0` is what the least multiple of
`$a0` that has no room in a word has too much. -/
theorem addUntilCarry_returns (hcaller : caller.At text base.toNat)
    (htext : listing base.toNat (addUntilCarry base) ≤ text)
    (ha0 : caller.registers Register.a0 ≠ 0) :
    ∃ m, Reaches caller m ∧ Returned [Register.v0] caller m ∧ m.host = caller.host ∧
      (m.registers Register.v0).toNat < (caller.registers Register.a0).toNat ∧
      ∃ k, (m.registers Register.v0).toNat + 2 ^ 32
        = k * (caller.registers Register.a0).toNat := by
  have hpos : 0 < (caller.registers Register.a0).toNat := by
    refine Nat.pos_of_ne_zero fun hzero => ha0 (UInt32.toNat_inj.mp ?_)
    rw [hzero]
    rfl
  -- the invariant: a multiple has been added up; the variant: the room that is left
  have hloop : LeadsTo Step
      (fun m => AddLoop text base caller m ∧
        ∃ k, (m.registers Register.v0).toNat = k * (caller.registers Register.a0).toNat)
      (fun m => Returned [Register.v0] caller m ∧ m.host = caller.host ∧
        (m.registers Register.v0).toNat < (caller.registers Register.a0).toNat ∧
        ∃ k, (m.registers Register.v0).toNat + 2 ^ 32
          = k * (caller.registers Register.a0).toNat) := by
    refine .loop (fun m => 2 ^ 32 - (m.registers Register.v0).toNat) fun n m hm => ?_
    obtain ⟨⟨hhead, k, hk⟩, hn⟩ := hm
    obtain ⟨m', hreaches, hhost, hv0, hnext⟩ := hhead.pass htext
    have hlt := (m.registers Register.v0).toNat_lt
    have hsucc : (m.registers Register.v0).toNat + (caller.registers Register.a0).toNat
        = (k + 1) * (caller.registers Register.a0).toNat := by rw [Nat.succ_mul, hk]
    refine ⟨m', hreaches, ?_⟩
    split at hnext
    · rename_i hroom
      rw [Nat.mod_eq_of_lt hroom] at hv0
      exact .inr ⟨⟨hnext, k + 1, by rw [hv0, hsucc]⟩, by omega⟩
    · rename_i hroom
      have hv0' : (m'.registers Register.v0).toNat + 2 ^ 32
          = (m.registers Register.v0).toNat + (caller.registers Register.a0).toNat := by
        have ha0' := (caller.registers Register.a0).toNat_lt
        omega
      exact .inl ⟨hnext, hhost, by omega, k + 1, by rw [hv0', hsucc]⟩
  obtain ⟨m, hreaches, hhead, hv0⟩ := addUntilCarry_enters hcaller htext
  obtain ⟨m', hreaches', hreturned⟩ := hloop m ⟨hhead, 1, by rw [hv0, one_mul]⟩
  exact ⟨m', hreaches.trans hreaches', hreturned⟩

/-- The loop of `add_until_carry` if it adds nothing. -/
structure AddNothing (text : Text) (base : Word) (caller m : IsaMachine) : Prop where
  keeps : Keeps [Register.pc, Register.v0] caller m
  host : m.host = caller.host
  stands : m.At text base.toNat ∨ m.At text (base.toNat + 8) ∨
    m.At text (base.toNat + 16) ∧ m.cpsr.C = false

/-- **`add_until_carry` does not return** if `$a0` is zero. -/
theorem addUntilCarry_endless (hcaller : caller.At text base.toNat)
    (htext : listing base.toNat (addUntilCarry base) ≤ text)
    (ha0 : caller.registers Register.a0 = 0) (hreaches : Reaches caller m) :
    AddNothing text base caller m ∧ ∃ m', Step m m' := by
  have hreach := hcaller.holds.reachable (htext _ _ ⟨3, rfl, rfl⟩)
  simp only [instructionSize] at hreach
  have hpass : ∀ m, AddNothing text base caller m →
      ∃ m', Step m m' ∧ AddNothing text base caller m' := by
    rintro m ⟨hkeeps, hhost, hat | hat | ⟨hat, hclear⟩⟩
    · obtain ⟨m', hgoes, hhost', -⟩ := hat.move rfl (htext _ _ ⟨0, rfl, rfl⟩) (by decide)
        (fun _ => by decide) (by omega)
      exact ⟨m', hgoes.step, hkeeps.trans hgoes.keeps, hhost'.trans hhost, .inr (.inl hgoes.stands)⟩
    · obtain ⟨m', hgoes, hhost', -, hflags⟩ := hat.compute rfl rfl (htext _ _ ⟨1, rfl, rfl⟩)
        (by decide) (fun _ => by decide) (by omega)
      refine ⟨m', hgoes.step, hkeeps.trans hgoes.keeps, hhost'.trans hhost,
        .inr (.inr ⟨hgoes.stands, ?_⟩)⟩
      -- zero is added
      have hzero : m.registers Register.a0 = 0 :=
        (hkeeps.registers _ (by decide) (by decide)).trans ha0
      have hlt := (m.registers Register.v0).toNat_lt
      rw [hflags]
      refine (exactFlags_sum_C _ _).trans (decide_eq_false ?_)
      rw [IsaMachine.operand, hzero]
      simp only [UInt32.reduceToNat]
      omega
    · have hholds : Condition.carryClear.holds m.cpsr = true := by
        rw [Condition.holds, hclear]
        rfl
      obtain ⟨m', hgoes, hhost'⟩ := hat.jmp (htext _ _ ⟨2, rfl, rfl⟩) hholds
      have htarget : (base + 8).toNat = base.toNat + 8 :=
        toNat_target (by simp only [UInt32.reduceToNat]; omega)
      exact ⟨m', hgoes.step, hkeeps.trans (hgoes.keeps.mono (by simp)), hhost'.trans hhost,
        .inr (.inl (htarget ▸ hgoes.stands))⟩
  have hendless : Endless Step (AddNothing text base caller) := by
    intro m hm
    obtain ⟨m', hstep, hm'⟩ := hpass m hm
    exact ⟨⟨m', hstep⟩, fun m'' hstep' => hstep.unique hstep' ▸ hm'⟩
  exact hendless.reached ⟨Keeps.refl _ _, rfl, .inl hcaller⟩ hreaches

end AddUntilCarry

/-! ## Printing a string -/

/-- `print_string` -/
def printString (base : Word) : List Instruction :=
  [Opcode.movr.instruction .unconditional Register.t0 Register.a0 0,
   Opcode.xorr.instruction .unconditional Register.a0 Register.a0 0,
   Opcode.loadb.instruction .unconditional Register.a0 Register.t0 0,
   Opcode.cmpi.instruction .unconditional Register.a0 Register.zero 0,
   Opcode.jmp.instruction .zeroSet Register.zero Register.zero (base + 64),
   Opcode.int.instruction .unconditional Register.zero Register.zero 2,
   Opcode.inc.instruction .unconditional Register.t0 Register.zero 0,
   Opcode.jmp.instruction .unconditional Register.zero Register.zero (base + 16),
   Opcode.ret.instruction .unconditional Register.zero Register.zero 0]

/-- The characters of a string at an address, up to a zero byte. -/
def StringAt (memory : Bytes) : ℕ → Bytes → Prop
  | address, [] => memory[address]? = some 0
  | address, c :: rest => memory[address]? = some c ∧ c ≠ 0 ∧ StringAt memory (address + 1) rest

instance StringAt.decidable (memory : Bytes) :
    ∀ address string, Decidable (StringAt memory address string)
  | address, [] => inferInstanceAs (Decidable (memory[address]? = some 0))
  | address, c :: rest =>
      have := StringAt.decidable memory (address + 1) rest
      inferInstanceAs (Decidable (memory[address]? = some c ∧ c ≠ 0 ∧ _))

section PrintString

variable {text : Text} {base : Word} {caller m : IsaMachine}

/-- The head of the loop of `print_string`: some characters are left. -/
structure PrintLoop (text : Text) (base : Word) (caller m : IsaMachine) (rest : Bytes) : Prop where
  stands : m.At text (base.toNat + 16)
  keeps : Keeps [Register.pc, Register.a0, Register.t0] caller m
  character : (m.registers Register.a0).toNat < 256
  string : StringAt caller.memory (m.registers Register.t0).toNat rest

/-- The first two instructions lead to the head of the loop. -/
theorem printString_enters (hcaller : caller.At text base.toNat)
    (htext : listing base.toNat (printString base) ≤ text) {string : Bytes}
    (hstring : StringAt caller.memory (caller.registers Register.a0).toNat string) :
    ∃ m, Reaches caller m ∧ PrintLoop text base caller m string ∧ m.host = caller.host ∧
      m.registers Register.t0 = caller.registers Register.a0 := by
  have hreach := hcaller.holds.reachable (htext _ _ ⟨8, rfl, rfl⟩)
  simp only [instructionSize] at hreach
  obtain ⟨m₁, hfirst, hhost₁, ht0⟩ := hcaller.move rfl (htext _ _ ⟨0, rfl, rfl⟩) (by decide)
    (fun _ => by decide) (by omega)
  obtain ⟨m₂, hsecond, hhost₂, ha0, -⟩ := hfirst.stands.compute rfl rfl (htext _ _ ⟨1, rfl, rfl⟩)
    (by decide) (fun _ => by decide) (by omega)
  have ht0' : m₂.registers Register.t0 = caller.registers Register.a0 :=
    (hsecond.keeps.registers _ (by decide) (by decide)).trans ht0
  refine ⟨m₂, .tail (.single hfirst.step) hsecond.step, ⟨hsecond.stands, ?_, ?_, ?_⟩,
    hhost₂.trans hhost₁, ht0'⟩
  · exact (hfirst.keeps.mono (by simp)).trans (hsecond.keeps.mono (by simp))
  · rw [ha0, IsaMachine.operand, wrap_xor_self]
    decide
  · rw [ht0']
    exact hstring

/-- The end of the string leads out of the loop. -/
theorem PrintLoop.finish (h : PrintLoop text base caller m [])
    (htext : listing base.toNat (printString base) ≤ text) :
    ∃ m', Reaches m m' ∧ Returned [Register.a0, Register.t0] caller m' ∧ m'.host = m.host ∧
      m'.registers Register.a0 = 0 ∧ m'.registers Register.t0 = m.registers Register.t0 := by
  have hreach := h.stands.holds.reachable (htext _ _ ⟨8, rfl, rfl⟩)
  simp only [instructionSize] at hreach
  have hbyte : m.memory[(m.registers Register.t0).toNat + (0 : Word).toNat]? = some 0 := by
    rw [h.keeps.memory]
    exact h.string
  obtain ⟨m₁, hfirst, hhost₁, hload⟩ := h.stands.loadb rfl (htext _ _ ⟨2, rfl, rfl⟩) (by decide)
    (by decide) (by omega) hbyte
  rw [replaceLow_byte h.character] at hload
  obtain ⟨m₂, hsecond, hhost₂, hflags⟩ := hfirst.stands.compare rfl rfl
    (htext _ _ ⟨3, rfl, rfl⟩) (by decide) (fun hrs => by cases hrs) (by omega)
  have hzero : Condition.zeroSet.holds m₂.cpsr = true := by
    rw [hflags]
    refine (exactFlags_compare_zero_Z _).trans ?_
    rw [hload]
    rfl
  obtain ⟨m₃, hthird, hhost₃⟩ := hsecond.stands.jmp (htext _ _ ⟨4, rfl, rfl⟩) hzero
  have htarget : (base + 64).toNat = base.toNat + instructionSize * 8 :=
    toNat_target (by simp only [UInt32.reduceToNat]; omega)
  obtain ⟨m₄, hfourth, hhost₄, hpc⟩ := hthird.stands.ret (by
    rw [htarget]
    exact htext _ _ ⟨8, rfl, rfl⟩)
  have hkeeps : Keeps [Register.pc, Register.a0] m m₃ :=
    (hfirst.keeps.trans (hsecond.keeps.mono (by simp))).trans (hthird.keeps.mono (by simp))
  have hkeeps' : Keeps [Register.pc, Register.a0] m m₄ :=
    hkeeps.trans (hfourth.keeps.mono (by simp))
  refine ⟨m₄, .tail (.tail (.tail (.single hfirst.step) hsecond.step) hthird.step) hfourth.step,
    ⟨h.keeps.trans (hkeeps'.mono (by simp)), ?_⟩, ?_, ?_, hkeeps'.registers _ (by decide) (by decide)⟩
  · rw [hpc, hkeeps.registers _ (by decide) (by decide),
      h.keeps.registers _ (by decide) (by decide)]
  · rw [hhost₄, hhost₃, hhost₂, hhost₁]
  · rw [hfourth.keeps.registers _ (by decide) (by decide),
      hthird.keeps.registers _ (by decide) (by decide),
      hsecond.keeps.registers _ (by decide) (by decide), hload]
    rfl

/-- **A pass** prints a character. -/
theorem PrintLoop.pass {c : Byte} {rest : Bytes} (h : PrintLoop text base caller m (c :: rest))
    (htext : listing base.toNat (printString base) ≤ text)
    (hroom : (m.registers Register.t0).toNat + 1 < 2 ^ 32) :
    ∃ m', Reaches m m' ∧ PrintLoop text base caller m' rest ∧
      m'.host = { m.host with output := m.host.output ++ [c] } ∧
      (m'.registers Register.t0).toNat = (m.registers Register.t0).toNat + 1 := by
  have hreach := h.stands.holds.reachable (htext _ _ ⟨8, rfl, rfl⟩)
  simp only [instructionSize] at hreach
  obtain ⟨hbyte, hc, hrest⟩ := h.string
  rw [← h.keeps.memory] at hbyte
  obtain ⟨m₁, hfirst, hhost₁, hload⟩ := h.stands.loadb rfl (htext _ _ ⟨2, rfl, rfl⟩) (by decide)
    (by decide) (by omega) hbyte
  rw [replaceLow_byte h.character] at hload
  obtain ⟨m₂, hsecond, hhost₂, hflags⟩ := hfirst.stands.compare rfl rfl
    (htext _ _ ⟨3, rfl, rfl⟩) (by decide) (fun hrs => by cases hrs) (by omega)
  have hnonzero : Condition.zeroSet.holds m₂.cpsr = false := by
    rw [hflags]
    refine (exactFlags_compare_zero_Z _).trans (beq_eq_false_iff_ne.mpr fun hzero => hc ?_)
    rw [hload] at hzero
    refine UInt8.toNat_inj.mp ?_
    rw [← UInt8.toNat_toUInt32, hzero]
    rfl
  obtain ⟨m₃, hthird, hhost₃⟩ := hsecond.stands.skip (htext _ _ ⟨4, rfl, rfl⟩) hnonzero (by omega)
  have hkeeps₃ : Keeps [Register.pc, Register.a0] m m₃ :=
    (hfirst.keeps.trans (hsecond.keeps.mono (by simp))).trans (hthird.keeps.mono (by simp))
  have ha0 : m₃.registers Register.a0 = c.toUInt32 := by
    rw [hthird.keeps.registers _ (by decide) (by decide),
      hsecond.keeps.registers _ (by decide) (by decide), hload]
  obtain ⟨m₄, hfourth, hhost₄⟩ := hthird.stands.print (htext _ _ ⟨5, rfl, rfl⟩) (by omega)
  obtain ⟨m₅, hfifth, hhost₅, hinc, -⟩ := hfourth.stands.compute rfl rfl (htext _ _ ⟨6, rfl, rfl⟩)
    (by decide) (fun hrs => by cases hrs) (by omega)
  obtain ⟨m₆, hsixth, hhost₆⟩ := hfifth.stands.jmp (htext _ _ ⟨7, rfl, rfl⟩) rfl
  have htarget : (base + 16).toNat = base.toNat + 16 :=
    toNat_target (by simp only [UInt32.reduceToNat]; omega)
  have ht0 : (m₆.registers Register.t0).toNat = (m.registers Register.t0).toNat + 1 := by
    rw [hsixth.keeps.registers _ (by decide) (by decide), hinc]
    refine (toNat_successor _).trans ?_
    rw [hfourth.keeps.registers _ (by decide) (by decide),
      hkeeps₃.registers _ (by decide) (by decide), Nat.mod_eq_of_lt hroom]
  refine ⟨m₆, .tail (.tail (.tail (.tail (.tail (.single hfirst.step) hsecond.step) hthird.step)
    hfourth.step) hfifth.step) hsixth.step, ⟨htarget ▸ hsixth.stands, ?_, ?_, ?_⟩, ?_, ht0⟩
  · exact (((h.keeps.trans (hkeeps₃.mono (by simp))).trans (hfourth.keeps.mono (by simp))).trans
      (hfifth.keeps.mono (by simp))).trans (hsixth.keeps.mono (by simp))
  · rw [hsixth.keeps.registers _ (by decide) (by decide),
      hfifth.keeps.registers _ (by decide) (by decide),
      hfourth.keeps.registers _ (by decide) (by decide), ha0, UInt8.toNat_toUInt32]
    exact c.toNat_lt
  · rw [ht0]
    exact hrest
  · rw [hhost₆, hhost₅, hhost₄, hhost₃, hhost₂, hhost₁, ha0, UInt8.toUInt8_toUInt32]

/-- The loop prints what is left of the string. -/
theorem PrintLoop.returns (htext : listing base.toNat (printString base) ≤ text) {rest : Bytes} :
    ∀ {m}, PrintLoop text base caller m rest →
      (m.registers Register.t0).toNat + rest.length < 2 ^ 32 →
      ∃ m', Reaches m m' ∧ Returned [Register.a0, Register.t0] caller m' ∧
        m'.host = { m.host with output := m.host.output ++ rest } ∧
        m'.registers Register.a0 = 0 ∧
        (m'.registers Register.t0).toNat = (m.registers Register.t0).toNat + rest.length := by
  induction rest with
  | nil =>
      intro m h _
      obtain ⟨m', hreaches, hreturned, hhost, ha0, ht0⟩ := h.finish htext
      refine ⟨m', hreaches, hreturned, ?_, ha0, congrArg UInt32.toNat ht0⟩
      rw [hhost, List.append_nil]
  | cons c rest ih =>
      intro m h hroom
      rw [List.length_cons] at hroom ⊢
      obtain ⟨m', hreaches, hloop, hhost, ht0⟩ := h.pass htext (by omega)
      obtain ⟨m'', hreaches', hreturned, hhost', ha0, ht0'⟩ := ih hloop (by omega)
      refine ⟨m'', hreaches.trans hreaches', hreturned, ?_, ha0, by omega⟩
      rw [hhost', hhost, List.append_assoc, List.singleton_append]

/-- **`print_string` prints** the characters of a string and returns to its caller. -/
theorem printString_returns (hcaller : caller.At text base.toNat)
    (htext : listing base.toNat (printString base) ≤ text) {string : Bytes}
    (hstring : StringAt caller.memory (caller.registers Register.a0).toNat string)
    (hroom : (caller.registers Register.a0).toNat + string.length < 2 ^ 32) :
    ∃ m, Reaches caller m ∧ Returned [Register.a0, Register.t0] caller m ∧
      m.host = { caller.host with output := caller.host.output ++ string } ∧
      m.registers Register.a0 = 0 ∧
      (m.registers Register.t0).toNat = (caller.registers Register.a0).toNat + string.length := by
  obtain ⟨m, hreaches, hloop, hhost, ht0⟩ := printString_enters hcaller htext hstring
  obtain ⟨m', hreaches', hreturned, hhost', ha0, ht0'⟩ :=
    hloop.returns htext (by rw [ht0]; exact hroom)
  rw [ht0] at ht0'
  exact ⟨m', hreaches.trans hreaches', hreturned, hhost ▸ hhost', ha0, ht0'⟩

end PrintString

/-! ## Printing a line -/

/-- `print_line`, which calls `print_string`. -/
def printLine (printString : Word) : List Instruction :=
  [Opcode.pushr.instruction .unconditional Register.lp Register.zero 0,
   Opcode.jmpal.instruction .unconditional Register.zero Register.zero printString,
   Opcode.popr.instruction .unconditional Register.lp Register.zero 0,
   Opcode.pushr.instruction .unconditional Register.a0 Register.zero 0,
   Opcode.movi.instruction .unconditional Register.a0 Register.zero 10,
   Opcode.int.instruction .unconditional Register.zero Register.zero 2,
   Opcode.popr.instruction .unconditional Register.a0 Register.zero 0,
   Opcode.ret.instruction .unconditional Register.zero Register.zero 0]

/-- A string stays when something is written beside it. -/
theorem StringAt.overlay {memory data : Bytes} {start : ℕ} : ∀ {string : Bytes} {address : ℕ},
    StringAt memory address string →
    (address + string.length < start ∨ start + data.length ≤ address) →
    StringAt (Buffer.overlay memory start data) address string := by
  intro string
  induction string with
  | nil =>
      intro address h hapart
      rw [List.length_nil] at hapart
      show (Buffer.overlay memory start data)[address]? = _
      rw [getElem?_overlay, if_neg (by omega)]
      exact h
  | cons c rest ih =>
      rintro address ⟨hc, hzero, hrest⟩ hapart
      rw [List.length_cons] at hapart
      refine ⟨?_, hzero, ih hrest (by omega)⟩
      rw [getElem?_overlay, if_neg (by omega)]
      exact hc

/-- What `print_line` leaves: a word of its stack is zero. -/
structure PrintedLine (string : Bytes) (caller m : IsaMachine) : Prop where
  registers : ∀ r, r ≠ Register.zero → r ∉ [Register.pc, Register.a0, Register.t0] →
    m.registers r = caller.registers r
  pc : m.registers Register.pc = caller.registers Register.lp
  a0 : m.registers Register.a0 = 0
  t0 : (m.registers Register.t0).toNat = (caller.registers Register.a0).toNat + string.length
  memory : m.memory = Buffer.overlay caller.memory (caller.registers Register.sp).toNat
    (LittleEndian.bytes 4 0)
  state : m.cpsr.ST = caller.cpsr.ST
  host : m.host = { caller.host with output := caller.host.output ++ (string ++ [10]) }

section PrintLine

variable {text : Text} {base target : Word} {caller : IsaMachine} {depth : ℕ}

/-- The word that has just been pushed is on top. -/
theorem topWord_of_writes {m m' : IsaMachine} {value : Word} {changed : List Register}
    {next : ℕ} (h : Writes text next changed (m.registers Register.sp).toNat
      (LittleEndian.bytes 4 value.toNat) m m')
    (hroom : m.HasRoom text depth) (hsp : m'.registers Register.sp = m.registers Register.sp + 4) :
    m'.topWord = value := by
  have hinside := hroom.inside
  have hreach := hroom.reachable
  have haddress : (m'.registers Register.sp).toNat - 4 = (m.registers Register.sp).toNat := by
    rw [hsp, toNat_target (by simp only [UInt32.reduceToNat]; omega)]
    simp only [UInt32.reduceToNat]
    omega
  have hslice := @slice_overlay_self _ m.memory (m.registers Register.sp).toNat
    (LittleEndian.bytes 4 value.toNat) (by rw [LittleEndian.length_bytes]; exact hinside)
  rw [LittleEndian.length_bytes] at hslice
  rw [topWord, haddress, h.memory, hslice, LittleEndian.value_bytes_of_lt value.toNat_lt,
    UInt32.ofNat_toNat]

/-- `print_line` after its call: the string is printed, and the return address restored. -/
structure StringPrinted (text : Text) (base : Word) (string : Bytes) (caller m : IsaMachine) :
    Prop where
  stands : m.At text (base.toNat + 24)
  registers : ∀ r, r ≠ Register.zero → r ∉ [Register.pc, Register.a0, Register.t0] →
    m.registers r = caller.registers r
  a0 : m.registers Register.a0 = 0
  t0 : (m.registers Register.t0).toNat = (caller.registers Register.a0).toNat + string.length
  memory : m.memory = Buffer.overlay caller.memory (caller.registers Register.sp).toNat
    (LittleEndian.bytes 4 (caller.registers Register.lp).toNat)
  host : m.host = { caller.host with output := caller.host.output ++ string }

/-- `print_line` saves its return address, calls `print_string` and restores it. -/
theorem printLine_calls (hcaller : caller.At text base.toNat)
    (htext : listing base.toNat (printLine target) ≤ text)
    (htext' : listing target.toNat (printString target) ≤ text) (hroom : caller.HasRoom text depth)
    {string : Bytes}
    (hstring : StringAt caller.memory (caller.registers Register.a0).toNat string)
    (hlength : (caller.registers Register.a0).toNat + string.length < 2 ^ 32)
    (hapart : (caller.registers Register.a0).toNat + string.length
        < (caller.registers Register.sp).toNat ∨
      (caller.registers Register.sp).toNat + 4 ≤ (caller.registers Register.a0).toNat) :
    ∃ m, Reaches caller m ∧ StringPrinted text base string caller m := by
  have hreach := hcaller.holds.reachable (htext _ _ ⟨7, rfl, rfl⟩)
  simp only [instructionSize] at hreach
  have hinside := hroom.inside
  have hspReach := hroom.reachable
  obtain ⟨m₁, h₁, hsp₁, hdepth₁⟩ := hcaller.pushr hroom (htext _ _ ⟨0, rfl, rfl⟩) (by decide)
    (by omega)
  obtain ⟨m₂, h₂, hhost₂, hlp₂⟩ := h₁.stands.call (htext _ _ ⟨1, rfl, rfl⟩)
  have ha0 : m₂.registers Register.a0 = caller.registers Register.a0 :=
    (h₂.keeps.registers _ (by decide) (by decide)).trans (h₁.registers _ (by decide) (by decide))
  have hstring₂ : StringAt m₂.memory (m₂.registers Register.a0).toNat string := by
    rw [h₂.keeps.memory, h₁.memory, ha0]
    exact hstring.overlay (by rw [LittleEndian.length_bytes]; exact hapart)
  obtain ⟨m₃, hcall, hreturned, hhost₃, ha0₃, ht0₃⟩ :=
    printString_returns h₂.stands htext' hstring₂ (by rw [ha0]; exact hlength)
  -- back from the call
  have hat₃ : m₃.At text (base.toNat + 8 + 8) := by
    refine ⟨hreturned.keeps.state.trans h₂.stands.normal,
      h₂.stands.holds.of_eq hreturned.keeps.memory, ?_⟩
    have hpc₁ := h₁.stands.pc
    rw [hreturned.pc, hlp₂, UInt32.toNat_add]
    simp only [UInt32.reduceToNat]
    omega
  have hmemory₃ : m₃.memory = m₁.memory := hreturned.keeps.memory.trans h₂.keeps.memory
  have hkept₃ : ∀ r, r ≠ Register.zero →
      r ∉ [Register.pc, Register.a0, Register.t0, Register.lp] →
      m₃.registers r = m₁.registers r := by
    intro r hr hmem
    simp only [List.mem_cons, List.not_mem_nil, or_false, not_or] at hmem
    rw [hreturned.keeps.registers r hr (by simp [hmem]), h₂.keeps.registers r hr (by simp [hmem])]
  have hsp₃ : m₃.registers Register.sp = m₁.registers Register.sp :=
    hkept₃ _ (by decide) (by decide)
  have hdepth₃ : m₃.stackDepth = some (depth + 1) :=
    (stackDepth_congr hsp₃ (hkept₃ _ (by decide) (by decide))).trans hdepth₁
  have htop₃ : m₃.topWord = caller.registers Register.lp := by
    rw [← topWord_of_writes h₁ hroom hsp₁, topWord, topWord, hsp₃, hmemory₃]
  have hspNat : (caller.registers Register.sp + 4).toNat
      = (caller.registers Register.sp).toNat + 4 :=
    toNat_target (by simp only [UInt32.reduceToNat]; omega)
  obtain ⟨m₄, h₄, hhost₄, hsp₄, hlp₄⟩ := hat₃.popr hdepth₃
    (by rw [hmemory₃, h₁.memory, length_overlay, hsp₃, hsp₁, hspNat]; exact hinside)
    (htext _ _ ⟨2, rfl, rfl⟩) (by decide) (by decide) (by omega)
  refine ⟨m₄, ((Relation.ReflTransGen.single h₁.step).tail h₂.step).trans (hcall.tail h₄.step),
    h₄.stands, fun r hr hmem => ?_, ?_, ?_, ?_, ?_⟩
  · simp only [List.mem_cons, List.not_mem_nil, or_false, not_or] at hmem
    by_cases hlp : r = Register.lp
    · rw [hlp, hlp₄, htop₃]
    · by_cases hsp : r = Register.sp
      · rw [hsp, hsp₄, hsp₃, hsp₁, UInt32.add_sub_cancel]
      · rw [h₄.keeps.registers r hr (by simp [hmem, hlp, hsp]), hkept₃ r hr (by simp [hmem, hlp]),
          h₁.registers r hr (by simp [hmem, hsp])]
  · rw [h₄.keeps.registers _ (by decide) (by decide), ha0₃]
  · rw [h₄.keeps.registers _ (by decide) (by decide), ht0₃, ha0]
  · rw [h₄.keeps.memory, hmemory₃, h₁.memory]
  · rw [hhost₄, hhost₃, hhost₂, h₁.host]

/-- **`print_line` prints** the characters of a string and a line break, and returns to its
caller. -/
theorem printLine_returns (hcaller : caller.At text base.toNat)
    (htext : listing base.toNat (printLine target) ≤ text)
    (htext' : listing target.toNat (printString target) ≤ text) (hroom : caller.HasRoom text depth)
    {string : Bytes}
    (hstring : StringAt caller.memory (caller.registers Register.a0).toNat string)
    (hlength : (caller.registers Register.a0).toNat + string.length < 2 ^ 32)
    (hapart : (caller.registers Register.a0).toNat + string.length
        < (caller.registers Register.sp).toNat ∨
      (caller.registers Register.sp).toNat + 4 ≤ (caller.registers Register.a0).toNat) :
    ∃ m, Reaches caller m ∧ PrintedLine string caller m := by
  obtain ⟨m₄, hcalls, h₄⟩ := printLine_calls hcaller htext htext' hroom hstring hlength hapart
  have hreach := hcaller.holds.reachable (htext _ _ ⟨7, rfl, rfl⟩)
  simp only [instructionSize] at hreach
  have hinside := hroom.inside
  have hspReach := hroom.reachable
  have hlength₄ : m₄.memory.length = caller.memory.length := by rw [h₄.memory, length_overlay]
  have hsp₄ : m₄.registers Register.sp = caller.registers Register.sp :=
    h₄.registers _ (by decide) (by decide)
  have hroom₄ : m₄.HasRoom text depth := by
    refine ⟨(stackDepth_congr hsp₄ (h₄.registers _ (by decide) (by decide))).trans hroom.words,
      hroom.room, ?_, ?_, ?_⟩
    · rw [hsp₄, hlength₄]
      exact hinside
    · rw [hsp₄]
      exact hspReach
    · rw [hsp₄]
      exact hroom.spares
  obtain ⟨m₅, h₅, hsp₅, hdepth₅⟩ := h₄.stands.pushr hroom₄ (htext _ _ ⟨3, rfl, rfl⟩) (by decide)
    (by omega)
  obtain ⟨m₆, h₆, hhost₆, ha0₆⟩ := h₅.stands.move rfl (htext _ _ ⟨4, rfl, rfl⟩) (by decide)
    (fun hrs => by cases hrs) (by omega)
  obtain ⟨m₇, h₇, hhost₇⟩ := h₆.stands.print (htext _ _ ⟨5, rfl, rfl⟩) (by omega)
  have hsp₇ : m₇.registers Register.sp = m₅.registers Register.sp :=
    (h₇.keeps.registers _ (by decide) (by decide)).trans
      (h₆.keeps.registers _ (by decide) (by decide))
  have hmemory₇ : m₇.memory = m₅.memory := h₇.keeps.memory.trans h₆.keeps.memory
  have hdepth₇ : m₇.stackDepth = some (depth + 1) := by
    refine (stackDepth_congr hsp₇ ?_).trans hdepth₅
    rw [h₇.keeps.registers _ (by decide) (by decide), h₆.keeps.registers _ (by decide) (by decide)]
  have htop₇ : m₇.topWord = 0 := by
    have htop := topWord_of_writes h₅ hroom₄ hsp₅
    rw [h₄.a0] at htop
    rw [← htop, topWord, topWord, hsp₇, hmemory₇]
  have hspNat : (caller.registers Register.sp + 4).toNat
      = (caller.registers Register.sp).toNat + 4 :=
    toNat_target (by simp only [UInt32.reduceToNat]; omega)
  obtain ⟨m₈, h₈, hhost₈, hsp₈, ha0₈⟩ := h₇.stands.popr hdepth₇
    (by rw [hmemory₇, h₅.memory, length_overlay, hlength₄, hsp₇, hsp₅, hsp₄, hspNat]; exact hinside)
    (htext _ _ ⟨6, rfl, rfl⟩) (by decide) (by decide) (by omega)
  obtain ⟨m₉, h₉, hhost₉, hpc₉⟩ := h₈.stands.ret (htext _ _ ⟨7, rfl, rfl⟩)
  have hkept₈ : ∀ r, r ≠ Register.zero → r ∉ [Register.pc, Register.a0, Register.t0] →
      m₈.registers r = caller.registers r := by
    intro r hr hmem
    simp only [List.mem_cons, List.not_mem_nil, or_false, not_or] at hmem
    by_cases hsp : r = Register.sp
    · rw [hsp, hsp₈, hsp₇, hsp₅, hsp₄, UInt32.add_sub_cancel]
    · rw [h₈.keeps.registers r hr (by simp [hmem, hsp]),
        h₇.keeps.registers r hr (by simp [hmem]), h₆.keeps.registers r hr (by simp [hmem]),
        h₅.registers r hr (by simp [hmem, hsp]), h₄.registers r hr (by simp [hmem])]
  refine ⟨m₉, hcalls.trans (((((Relation.ReflTransGen.single h₅.step).tail h₆.step).tail
    h₇.step).tail h₈.step).tail h₉.step), fun r hr hmem => ?_, ?_, ?_, ?_, ?_, ?_, ?_⟩
  · have hpc : r ≠ Register.pc := List.ne_of_not_mem_cons hmem
    rw [h₉.keeps.registers r hr (by simpa using hpc), hkept₈ r hr hmem]
  · rw [hpc₉, hkept₈ _ (by decide) (by decide)]
  · rw [h₉.keeps.registers _ (by decide) (by decide), ha0₈, htop₇]
  · rw [h₉.keeps.registers _ (by decide) (by decide), h₈.keeps.registers _ (by decide) (by decide),
      h₇.keeps.registers _ (by decide) (by decide), h₆.keeps.registers _ (by decide) (by decide),
      h₅.registers _ (by decide) (by decide), h₄.t0]
  · rw [h₉.keeps.memory, h₈.keeps.memory, hmemory₇, h₅.memory, h₄.memory, hsp₄, h₄.a0]
    exact overlay_overlay _ _ (by rw [LittleEndian.length_bytes, LittleEndian.length_bytes])
  · rw [h₉.stands.normal, hcaller.normal]
  · rw [hhost₉, hhost₈, hhost₇, hhost₆, h₅.host, h₄.host, ha0₆, List.append_assoc]
    rfl

end PrintLine

/-! ## In the emulator -/

/-- A machine that runs and stands at the beginning of a routine. -/
structure Calls (vm : VirtualMachine) (text : Text) (base : Word) : Prop where
  normal : vm.cpsr.ST = .normal
  size : vm.memoryEnd ≤ sizeMax
  text : HoldsText vm text
  pc : vm.registers Register.pc = base

section Emulator

variable {vm : VirtualMachine} {text : Text} {base : Word}

theorem Calls.stands (h : Calls vm text base) : (isa vm).At text base.toNat where
  normal := h.normal
  holds := holds_isa h.text
  pc := by rw [isa_registers_of_ne (by decide), h.pc]

theorem Calls.concrete (h : Calls vm text base) : vm.cpsr.ST.isConcrete = true := by
  rw [h.normal]
  rfl

/-- What the emulator does in `add_until_carry`: nothing comes of adding zero, and of any other word
the least multiple that has no room, without its highest bit. -/
inductive AddOutcome (text : Text) (base : Word) (vm : VirtualMachine) : Prop
  | endless (zero : vm.registers Register.a0 = 0)
      (live : ∀ n, vmLive (vmSteps n vm) = true)
      (inside : ∀ n, AddNothing text base (isa vm) (isa (vmSteps n vm)))
  | returned (nonzero : vm.registers Register.a0 ≠ 0) (n : ℕ)
      (returned : Returned [Register.v0] (isa vm) (isa (vmSteps n vm)))
      (host : (vmSteps n vm).host = vm.host)
      (carry : ((vmSteps n vm).registers Register.v0).toNat < (vm.registers Register.a0).toNat)
      (multiple : ∃ k, ((vmSteps n vm).registers Register.v0).toNat + 2 ^ 32
        = k * (vm.registers Register.a0).toNat)

/-- **`add_until_carry` in the emulator.**  It returns if and only if `$a0` is not zero. -/
theorem vmSteps_addUntilCarry (h : Calls vm (listing base.toNat (addUntilCarry base)) base) :
    AddOutcome (listing base.toNat (addUntilCarry base)) base vm := by
  have ha0 : (isa vm).registers Register.a0 = vm.registers Register.a0 :=
    isa_registers_of_ne (by decide)
  by_cases hzero : vm.registers Register.a0 = 0
  · have hall := fun n => addUntilCarry_endless h.stands le_rfl (ha0.trans hzero)
      (reaches_vmSteps h.concrete h.size n)
    refine .endless hzero (fun n => ?_) fun n => (hall n).1
    obtain ⟨-, m', hnormal, -⟩ := hall n
    exact vmLive_of_normal hnormal
  · obtain ⟨m, hreaches, hreturned, hhost, hcarry, hmultiple⟩ :=
      addUntilCarry_returns h.stands le_rfl (by rwa [ha0])
    obtain ⟨n, rfl⟩ := exists_vmSteps_of_reaches h.size hreaches
    rw [ha0, isa_registers_of_ne (by decide)] at hcarry
    rw [ha0, isa_registers_of_ne (by decide)] at hmultiple
    exact .returned hzero n hreturned hhost hcarry hmultiple

/-- **`print_string` in the emulator.** -/
theorem vmSteps_printString (h : Calls vm (listing base.toNat (printString base)) base)
    {string : Bytes} (hstring : StringAt vm.flat (vm.registers Register.a0).toNat string)
    (hroom : (vm.registers Register.a0).toNat + string.length < 2 ^ 32) :
    ∃ n, Returned [Register.a0, Register.t0] (isa vm) (isa (vmSteps n vm)) ∧
      (vmSteps n vm).host = { vm.host with output := vm.host.output ++ string } ∧
      (vmSteps n vm).registers Register.a0 = 0 ∧
      ((vmSteps n vm).registers Register.t0).toNat
        = (vm.registers Register.a0).toNat + string.length := by
  have hregister : ∀ vm : VirtualMachine, (isa vm).registers Register.a0 = vm.registers Register.a0 :=
    fun vm => isa_registers_of_ne (by decide)
  obtain ⟨m, hreaches, hreturned, hhost, ha0, ht0⟩ := printString_returns h.stands le_rfl
    (by rw [hregister]; exact hstring) (by rw [hregister]; exact hroom)
  obtain ⟨n, rfl⟩ := exists_vmSteps_of_reaches h.size hreaches
  rw [hregister] at ha0 ht0
  rw [isa_registers_of_ne (by decide)] at ht0
  exact ⟨n, hreturned, hhost, ha0, ht0⟩

/-- **`print_line` in the emulator.** -/
theorem vmSteps_printLine {target : Word} (h : Calls vm text base)
    (htext : listing base.toNat (printLine target) ≤ text)
    (htext' : listing target.toNat (printString target) ≤ text) {depth : ℕ}
    (hroom : (isa vm).HasRoom text depth) {string : Bytes}
    (hstring : StringAt vm.flat (vm.registers Register.a0).toNat string)
    (hlength : (vm.registers Register.a0).toNat + string.length < 2 ^ 32)
    (hapart : (vm.registers Register.a0).toNat + string.length
        < (vm.registers Register.sp).toNat ∨
      (vm.registers Register.sp).toNat + 4 ≤ (vm.registers Register.a0).toNat) :
    ∃ n, PrintedLine string (isa vm) (isa (vmSteps n vm)) := by
  have hregister : ∀ r, r ≠ Register.zero → (isa vm).registers r = vm.registers r :=
    fun r hr => isa_registers_of_ne hr
  obtain ⟨m, hreaches, hprinted⟩ := printLine_returns h.stands htext htext' hroom
    (by rw [hregister _ (by decide)]; exact hstring) (by rw [hregister _ (by decide)]; exact hlength)
    (by rw [hregister _ (by decide), hregister _ (by decide)]; exact hapart)
  obtain ⟨n, rfl⟩ := exists_vmSteps_of_reaches h.size hreaches
  exact ⟨n, hprinted⟩

end Emulator

/-! ## Calls -/

/-- Code and data, one after the other. -/
def imageOf (code : List Instruction) (data : Bytes) : Bytes :=
  code.flatMap (fun instruction => (instructionEncode instruction).getD []) ++ data

/-- A machine that stands at the beginning of its image with an argument in `$a0`. -/
def calledMachine (image : Bytes) (argument : Word) : VirtualMachine :=
  (vmStart (vmLoadDump (vmInitialize 16) image)).setRegister Register.a0 argument

theorem vmSteps_addUntilCarry_three : AddOutcome (listing 0 (addUntilCarry 0)) 0
    (calledMachine (imageOf (addUntilCarry 0) []) 3) :=
  @vmSteps_addUntilCarry (calledMachine (imageOf (addUntilCarry 0) []) 3) 0
    ⟨rfl, by decide +kernel, holdsText_of_isa (by decide +kernel)
      (holds_listing (by decide +kernel) (by decide) (by decide +kernel)), rfl⟩

theorem vmSteps_printString_letter :
    ∃ n, Returned [Register.a0, Register.t0]
        (isa (calledMachine (imageOf (printString 0) [65, 0]) 72))
        (isa (vmSteps n (calledMachine (imageOf (printString 0) [65, 0]) 72))) ∧
      (vmSteps n (calledMachine (imageOf (printString 0) [65, 0]) 72)).host = ⟨[], [65]⟩ ∧
      (vmSteps n (calledMachine (imageOf (printString 0) [65, 0]) 72)).registers Register.a0 = 0 ∧
      ((vmSteps n (calledMachine (imageOf (printString 0) [65, 0]) 72)).registers
        Register.t0).toNat = 73 :=
  @vmSteps_printString (calledMachine (imageOf (printString 0) [65, 0]) 72) 0
    ⟨rfl, by decide +kernel, holdsText_of_isa (by decide +kernel)
      (holds_listing (by decide +kernel) (by decide) (by decide +kernel)), rfl⟩ [65]
    (by decide +kernel) (by decide +kernel)

/-- The two routines at addresses 0 and 64, and a string. -/
def lineMachine : VirtualMachine :=
  calledMachine (imageOf (printLine 64 ++ printString 64) [65, 0]) 136

theorem vmSteps_printLine_letter :
    ∃ n, PrintedLine [65] (isa lineMachine) (isa (vmSteps n lineMachine)) := by
  have htext : listing 0 (printLine 64) ≤ listing 0 (printLine 64 ++ printString 64) := by
    simpa using listing_le 0 [] (printLine 64) (printString 64)
  have htext' : listing 64 (printString 64) ≤ listing 0 (printLine 64 ++ printString 64) := by
    have hle := listing_le 0 (printLine 64) (printString 64) []
    rwa [List.append_nil, Nat.zero_add] at hle
  have hcalls : Calls lineMachine (listing 0 (printLine 64 ++ printString 64)) 0 :=
    ⟨by decide +kernel, by decide +kernel, holdsText_of_isa (by decide +kernel)
      (holds_listing (by decide +kernel) (by decide +kernel) (by decide +kernel)),
      by decide +kernel⟩
  have hroom : (isa lineMachine).HasRoom (listing 0 (printLine 64 ++ printString 64)) 0 :=
    ⟨by decide +kernel, by decide, by decide +kernel, by decide +kernel,
      spares_listing (by decide +kernel)⟩
  exact @vmSteps_printLine lineMachine _ 0 64 hcalls htext htext' 0 hroom [65] (by decide +kernel)
    (by decide +kernel) (by decide +kernel)

end Zlvm
