import Zlvm.Isa.Code

/-!
# Instructions that write to memory

* `IsaMachine.Writes` — a step that writes some bytes beside the text; `At.writes` — the text is
  still there.
* `HasRoom`, `topWord` — a stack that can be pushed onto, and the word on top of one.
* `At.push`, `At.popr`, `At.dup`, `At.storew` — the instructions of the stack and of the memory;
  `At.outside` — what becomes of them without memory.
-/

namespace Zlvm

open Buffer VirtualMachine

namespace IsaMachine

/-- A step to an address of the text, which writes some bytes and changes some registers at most. -/
structure Writes (text : Text) (target : ℕ) (changed : List Register) (start : ℕ) (data : Bytes)
    (m m' : IsaMachine) : Prop where
  step : Step m m'
  stands : m'.At text target
  registers : ∀ r, r ≠ Register.zero → r ∉ Register.pc :: changed →
    m'.registers r = m.registers r
  memory : m'.memory = overlay m.memory start data
  host : m'.host = m.host

section Texts

variable {m m' : IsaMachine} {text : Text} {start : ℕ} {data : Bytes}

/-- A text stays when something is written beside it. -/
theorem Holds.overlay (h : m.Holds text) (hmemory : m'.memory = Buffer.overlay m.memory start data)
    (hspares : Spares text (List.range' start data.length)) : m'.Holds text := by
  refine h.of_memory (by rw [hmemory, length_overlay]) fun address instruction here i hlow hhigh => ?_
  rw [hmemory, getElem?_overlay, if_neg]
  rintro ⟨hstart, hend, -⟩
  exact hspares i (List.mem_range'_1.mpr ⟨hstart, hend⟩) address instruction here ⟨hlow, hhigh⟩

end Texts

section Instructions

variable {m : IsaMachine} {text : Text} {address : ℕ} {op : Opcode} {rd rs : Register} {imm : Word}
  {depth : ℕ}

/-- An instruction that writes beside the text. -/
theorem At.writes (h : m.At text address)
    (here : text address (op.instruction .unconditional rd rs imm)) {changed : List Register}
    {start : ℕ} {data : Bytes} {m' : IsaMachine}
    (hm' : m.next.perform rd rs imm op.effect = m')
    (hregisters : ∀ r, r ≠ Register.zero → r ∉ changed → m'.registers r = m.next.registers r)
    (hmemory : m'.memory = overlay m.memory start data) (hstate : m'.cpsr.ST = m.cpsr.ST)
    (hhost : m'.host = m.host) (hpc : Register.pc ∉ changed)
    (hspares : Spares text (List.range' start data.length)) (hreach : address + 8 < 2 ^ 32) :
    Writes text (address + 8) changed start data m m' where
  step := hm' ▸ h.step_always here
  stands := by
    refine ⟨hstate.trans h.normal, h.holds.overlay hmemory hspares, ?_⟩
    have haddress := h.pc
    rw [hregisters _ (by decide) hpc, next_pc, UInt32.toNat_add]
    simp only [UInt32.reduceToNat]
    omega
  registers r hr hmem := by
    rw [hregisters r hr fun hr' => hmem (List.mem_cons_of_mem _ hr')]
    exact next_registers hr fun heq => hmem (heq ▸ List.mem_cons_self)
  memory := hmemory
  host := hhost

/-- A machine whose stack holds some words, and what `$sp` and `$bp` are then. -/
theorem stackDepth_eq_some :
    m.stackDepth = some depth ↔
      (m.registers Register.sp).toNat = (m.registers Register.bp).toNat + 4 * depth ∧
        depth ≤ stackCapacity := by
  unfold stackDepth
  dsimp only
  constructor
  · intro h
    split at h
    · rename_i hstack
      obtain rfl := Option.some.inj h
      exact ⟨by omega, hstack.2.2⟩
    · cases h
  · rintro ⟨hsp, hdepth⟩
    rw [if_pos ⟨by omega, by omega, by omega⟩, Option.some.injEq]
    omega

/-- The stack depends on its two registers only. -/
theorem stackDepth_congr {m' : IsaMachine}
    (hsp : m'.registers Register.sp = m.registers Register.sp)
    (hbp : m'.registers Register.bp = m.registers Register.bp) : m'.stackDepth = m.stackDepth := by
  rw [stackDepth, stackDepth, hsp, hbp]

theorem sp_next : m.next.registers Register.sp = m.registers Register.sp :=
  next_registers (by decide) (by decide)

theorem stackDepth_next : m.next.stackDepth = m.stackDepth :=
  stackDepth_congr sp_next (next_registers (by decide) (by decide))

/-- A stack with room, in a memory with room. -/
structure HasRoom (m : IsaMachine) (text : Text) (depth : ℕ) : Prop where
  words : m.stackDepth = some depth
  room : depth < stackCapacity
  inside : (m.registers Register.sp).toNat + 4 ≤ m.memory.length
  reachable : (m.registers Register.sp).toNat + 4 < 2 ^ 32
  spares : Spares text (List.range' (m.registers Register.sp).toNat 4)

/-- A push onto a stack with room. -/
theorem push_eq (hdepth : m.stackDepth = some depth) (hroom : depth < stackCapacity)
    (hinside : (m.registers Register.sp).toNat + 4 ≤ m.memory.length) (value : Word) :
    m.push value = IsaMachine.write
      { m with memory := overlay m.memory (m.registers Register.sp).toNat
                (LittleEndian.bytes 4 value.toNat) } Register.sp (m.registers Register.sp + 4) := by
  unfold push within
  simp only [hdepth, Option.any_some, decide_eq_true hroom, if_true, if_pos hinside]

/-- An instruction that pushes a word. -/
theorem At.push (h : m.At text address) (hroom : m.HasRoom text depth) (value : Word)
    (here : text address (op.instruction .unconditional rd rs imm))
    (hop : m.next.perform rd rs imm op.effect = m.next.push value)
    (hreach : address + 8 < 2 ^ 32) :
    ∃ m', Writes text (address + 8) [Register.sp] (m.registers Register.sp).toNat
        (LittleEndian.bytes 4 value.toNat) m m' ∧
      m'.registers Register.sp = m.registers Register.sp + 4 ∧
      m'.stackDepth = some (depth + 1) := by
  have hpush := push_eq (stackDepth_next.trans hroom.words) hroom.room
    (by rw [sp_next]; exact hroom.inside) value
  rw [sp_next] at hpush
  have hwrites : Writes text (address + 8) [Register.sp] (m.registers Register.sp).toNat
      (LittleEndian.bytes 4 value.toNat) m _ := h.writes here (hop.trans hpush)
    (fun r hr hmem => write_registers hr (fun heq => hmem (heq ▸ List.mem_cons_self)) _)
    rfl rfl rfl (by decide) (by rw [LittleEndian.length_bytes]; exact hroom.spares) hreach
  refine ⟨_, hwrites, write_registers_self (by decide) _, ?_⟩
  obtain ⟨hdepth, -⟩ := stackDepth_eq_some.mp hroom.words
  have hreachable := hroom.reachable
  rw [stackDepth_eq_some, write_registers_self (by decide),
    write_registers (by decide) (by decide), UInt32.toNat_add]
  refine ⟨?_, hroom.room⟩
  show _ = (m.next.registers Register.bp).toNat + _
  rw [next_registers (by decide) (by decide)]
  simp only [UInt32.reduceToNat]
  omega

/-- `PUSHR` -/
theorem At.pushr (h : m.At text address) (hroom : m.HasRoom text depth)
    (here : text address (Opcode.pushr.instruction .unconditional rd rs imm)) (hrd : Plain rd)
    (hreach : address + 8 < 2 ^ 32) :
    ∃ m', Writes text (address + 8) [Register.sp] (m.registers Register.sp).toNat
        (LittleEndian.bytes 4 (m.registers rd).toNat) m m' ∧
      m'.registers Register.sp = m.registers Register.sp + 4 ∧
      m'.stackDepth = some (depth + 1) :=
  h.push hroom _ here (congrArg m.next.push (next_registers hrd.1 hrd.2)) hreach

/-- `PUSHI` -/
theorem At.pushi (h : m.At text address) (hroom : m.HasRoom text depth)
    (here : text address (Opcode.pushi.instruction .unconditional rd rs imm))
    (hreach : address + 8 < 2 ^ 32) :
    ∃ m', Writes text (address + 8) [Register.sp] (m.registers Register.sp).toNat
        (LittleEndian.bytes 4 imm.toNat) m m' ∧
      m'.registers Register.sp = m.registers Register.sp + 4 ∧
      m'.stackDepth = some (depth + 1) :=
  h.push hroom imm here rfl hreach

/-- The word on top of a stack. -/
def topWord (m : IsaMachine) : Word :=
  UInt32.ofNat (LittleEndian.value (slice m.memory ((m.registers Register.sp).toNat - 4) 4))

/-- The top of a stack that is not empty. -/
theorem top_eq (hdepth : m.stackDepth = some (depth + 1))
    (hinside : (m.registers Register.sp).toNat ≤ m.memory.length) (next : Word → IsaMachine) :
    m.top next = next m.topWord := by
  obtain ⟨hwords, -⟩ := stackDepth_eq_some.mp hdepth
  have haddress : (m.registers Register.sp - 4).toNat = (m.registers Register.sp).toNat - 4 := by
    have hlt := (m.registers Register.sp).toNat_lt
    rw [UInt32.toNat_sub_of_le _ _ (UInt32.le_iff_toNat_le.mpr
      (by simp only [UInt32.reduceToNat]; omega))]
    rfl
  have hword : (m.registers Register.sp).toNat - 4 + 4 ≤ m.memory.length := by omega
  rw [top]
  simp only [within, hdepth, haddress, Option.any_some, decide_eq_true (Nat.succ_pos depth),
    if_true, if_pos hword]
  rfl

theorem topWord_next : m.next.topWord = m.topWord := by
  rw [topWord, topWord, sp_next]
  rfl

/-- `POPR` from a stack that is not empty. -/
theorem At.popr (h : m.At text address) (hdepth : m.stackDepth = some (depth + 1))
    (hinside : (m.registers Register.sp).toNat ≤ m.memory.length)
    (here : text address (Opcode.popr.instruction .unconditional rd rs imm)) (hrd : Plain rd)
    (hsp : rd ≠ Register.sp) (hreach : address + 8 < 2 ^ 32) :
    ∃ m', Goes text (address + 8) [Register.sp, rd] m m' ∧ m'.host = m.host ∧
      m'.registers Register.sp = m.registers Register.sp - 4 ∧ m'.registers rd = m.topWord := by
  have heffect : m.next.perform rd rs imm Opcode.popr.effect
      = (m.next.write Register.sp (m.registers Register.sp - 4)).write rd m.topWord := by
    rw [show Opcode.popr.effect = .pop true from rfl, perform,
      top_eq (stackDepth_next.trans hdepth) (by rw [sp_next]; exact hinside), topWord_next, sp_next]
    rfl
  have hkeeps : Keeps [Register.sp, rd] m.next (m.next.perform rd rs imm Opcode.popr.effect) :=
    heffect ▸ (Keeps.write (by simp) _ _).trans (Keeps.write (by simp) _ _)
  have hgoes := h.goes here hkeeps (by simpa [eq_comm] using ⟨by decide, hrd.2⟩) hreach
  rw [heffect] at hgoes
  refine ⟨_, hgoes, rfl, ?_, write_registers_self hrd.1 _⟩
  exact (write_registers (by decide) hsp.symm _).trans (write_registers_self (by decide) _)

/-- `DUP` of a stack that is not empty and has room. -/
theorem At.dup (h : m.At text address) (hroom : m.HasRoom text (depth + 1))
    (here : text address (Opcode.dup.instruction .unconditional rd rs imm))
    (hreach : address + 8 < 2 ^ 32) :
    ∃ m', Writes text (address + 8) [Register.sp] (m.registers Register.sp).toNat
        (LittleEndian.bytes 4 m.topWord.toNat) m m' ∧
      m'.registers Register.sp = m.registers Register.sp + 4 ∧
      m'.stackDepth = some (depth + 2) := by
  refine h.push hroom m.topWord here ?_ hreach
  have hinside := hroom.inside
  rw [show Opcode.dup.effect = .duplicate from rfl, perform,
    top_eq (stackDepth_next.trans hroom.words) (by rw [sp_next]; show _ ≤ m.memory.length; omega),
    topWord_next]

/-- `STOREW` inside the memory. -/
theorem At.storew (h : m.At text address)
    (here : text address (Opcode.storew.instruction .unconditional rd rs imm)) (hrd : Plain rd)
    (hrs : Plain rs)
    (hinside : (m.registers rs).toNat + imm.toNat + 4 ≤ m.memory.length)
    (hspares : Spares text (List.range' ((m.registers rs).toNat + imm.toNat) 4))
    (hreach : address + 8 < 2 ^ 32) :
    ∃ m', Writes text (address + 8) [] ((m.registers rs).toNat + imm.toNat)
      (LittleEndian.bytes 4 (m.registers rd).toNat) m m' := by
  have heffect : m.next.perform rd rs imm Opcode.storew.effect
      = { m.next with memory := overlay m.memory ((m.registers rs).toNat + imm.toNat)
                        (LittleEndian.bytes 4 (m.registers rd).toNat) } := by
    rw [show Opcode.storew.effect = .store .word from rfl, perform, next_registers hrs.1 hrs.2,
      next_registers hrd.1 hrd.2]
    exact if_pos hinside
  exact ⟨_, h.writes here heffect (fun _ _ _ => rfl) rfl rfl rfl (by simp)
    (by rw [LittleEndian.length_bytes]; exact hspares) hreach⟩

/-! ## Without memory -/

/-- A push onto a stack with room that ends outside the memory. -/
theorem push_outside (hdepth : m.stackDepth = some depth) (hroom : depth < stackCapacity)
    (houtside : m.memory.length < (m.registers Register.sp).toNat + 4) (value : Word) :
    m.push value = m.enter .errOutOfMemory := by
  unfold push within
  simp only [hdepth, Option.any_some, decide_eq_true hroom, if_true,
    if_neg (Nat.not_le.mpr houtside)]

/-- An instruction that needs more memory than there is. -/
theorem At.outside (h : m.At text address)
    (here : text address (op.instruction .unconditional rd rs imm))
    (hop : m.next.perform rd rs imm op.effect = m.next.enter .errOutOfMemory) :
    ∃ m', Step m m' ∧ m'.cpsr.ST = .errOutOfMemory ∧ m'.host = m.host :=
  ⟨_, h.step_always here, by rw [hop]; rfl, by rw [hop]; rfl⟩

/-- `PUSHI` outside the memory. -/
theorem At.pushi_outside (h : m.At text address) (hdepth : m.stackDepth = some depth)
    (hroom : depth < stackCapacity)
    (houtside : m.memory.length < (m.registers Register.sp).toNat + 4)
    (here : text address (Opcode.pushi.instruction .unconditional rd rs imm)) :
    ∃ m', Step m m' ∧ m'.cpsr.ST = .errOutOfMemory ∧ m'.host = m.host :=
  h.outside here (push_outside (stackDepth_next.trans hdepth) hroom
    (by rw [sp_next]; exact houtside) imm)

/-- `DUP` of a stack that is not empty, outside the memory. -/
theorem At.dup_outside (h : m.At text address) (hdepth : m.stackDepth = some (depth + 1))
    (hroom : depth + 1 < stackCapacity)
    (hinside : (m.registers Register.sp).toNat ≤ m.memory.length)
    (houtside : m.memory.length < (m.registers Register.sp).toNat + 4)
    (here : text address (Opcode.dup.instruction .unconditional rd rs imm)) :
    ∃ m', Step m m' ∧ m'.cpsr.ST = .errOutOfMemory ∧ m'.host = m.host := by
  refine h.outside here ?_
  rw [show Opcode.dup.effect = .duplicate from rfl, perform,
    top_eq (stackDepth_next.trans hdepth) (by rw [sp_next]; exact hinside)]
  exact push_outside (stackDepth_next.trans hdepth) hroom (by rw [sp_next]; exact houtside) _

/-- `STOREW` outside the memory. -/
theorem At.storew_outside (h : m.At text address)
    (here : text address (Opcode.storew.instruction .unconditional rd rs imm)) (hrs : Plain rs)
    (houtside : m.memory.length < (m.registers rs).toNat + imm.toNat + 4) :
    ∃ m', Step m m' ∧ m'.cpsr.ST = .errOutOfMemory ∧ m'.host = m.host := by
  refine h.outside here ?_
  rw [show Opcode.storew.effect = .store .word from rfl, perform, next_registers hrs.1 hrs.2]
  exact if_neg (Nat.not_le.mpr houtside)

end Instructions

end IsaMachine

end Zlvm
