import Zlvm.Program.Execution
import Zlvm.Program.Routines

/-!
# The test program

`test.asm`, from its source to the state in which the machine halts.

* `testSource` — the file; `zlasmAssemble_testSource` — what it is assembled to: the code of the main
  program and of its four routines, then the data.
* `TestAt` — what holds whenever the program is at an instruction of its main program.
* **`vmSteps_testProgram`** — it halts with its two lines printed on every machine that has memory at
  the one address it stores to, and stops out of memory on every other one.
-/

namespace Zlvm

open Buffer VirtualMachine Hoare IsaMachine

/-! ## The source -/

/-- The lines of `test.asm`. -/
def testLines : List String :=
  [".global start",
   ".global add_until_carry",
   ".global print_string",
   ".global print_line",
   ".global halt",
   "",
   ".extern factorial, 0xFF",
   "",
   ".section text",
   "",
   "start:",
   "        NOP             ; 0x08",
   "",
   "        Pushi   0x1024  ; 0x10",
   "        dup         ; 0x18",
   "        popr    $t2 ; 0x20",
   "        storew  $t2, $t0, 5192   ; 0x28",
   "        movr    $a0, $t2    ; 0x30",
   "",
   "        jmpal   #add_until_carry   ; 0x38",
   "",
   "        movi    $a0, #hello ; 0x40",
   "        jmpal   #print_line ; 0x48",
   "",
   "        movi    $a0, #bye   ; 0x50",
   "        jmpal   #print_line ; 0x58",
   "",
   "        jmp     #halt   ; 0x60",
   "",
   ";------- Functions --------;",
   "",
   "; doubles $a0 value until carry",
   "; @returns $v0 result after carrying",
   ".proc add_until_carry",
   "        movr    $v0, $a0        ; 0x68",
   "loop:",
   "        addr    $v0, $a0        ; 0x70",
   "        jmp cc  #add_until_carry.loop ; 0x78",
   "        ret     ;0x80",
   ".endproc",
   "",
   "; prints null-terminated string with default 0x10 cpu interrupt",
   "; @param $a0 address of _first char of string",
   ".proc print_string",
   "        movr    $t0, $a0    ; 0x88",
   "        xorr    $a0, $a0    ; 0x90",
   "",
   "loop:",
   "        loadb   $a0, $t0    ; 0x98",
   "        cmpi    $a0, 0      ; 0xA0",
   "        jmp zs  #print_string.end   ;0xA8",
   "        int     0x02        ; 0xB0",
   "        inc     $t0         ; 0xB8",
   "        jmp     #print_string.loop  ;0xC0",
   "",
   "end:",
   "        ret     ; 0xC8",
   ".endproc",
   "",
   "; prints null-terminated string with print_string and print line break after",
   "; @param $a0 address of _first char of string",
   ".proc print_line",
   "        pushr   $lp ; 0xD0",
   "        jmpal   #print_string ;0xD8",
   "        popr    $lp     ; 0xE0",
   "",
   "        pushr   $a0     ; 0xE8",
   "        movi    $a0, '\\n'   ; 0xF0",
   "        int     0x02    ; 0xF8",
   "        popr    $a0     ; 0x100",
   "        ret             ; 0x108 LOADH????",
   ".endproc",
   "",
   "; halts processor",
   ".proc halt",
   "        movi    $v0, 0xFF",
   "        int     0xFF",
   ".endproc",
   "",
   ".section data",
   "",
   "    hello:      .asciiz \"Hello, World!\", '\\n'",
   "    bye:        .ascii  \"Bye!\", '\\n', 0       ; same as `.asciiz \"Bye!\", '\\n'`",
   "",
   "    bytes:      .byte   0, 2, 0xF, 0o77, 0b1111_0101",
   "    hwords:     .hword  100, 0xFFF, 0b1111_1111_1111_1010",
   "    words:      .word   10, 0Xf1Abc, 0b11",
   "    dwords:     .dword  0xfAFFfF_101, 0b111_1_111111_1, 4096",
   "    buffer:     .space  100"]

/-- The file: its lines and the line breaks between them. -/
def testBytes : Bytes := [10].intercalate (testLines.map fun line => line.toUTF8.data.toList)

theorem zero_not_mem_testBytes : 0 ∉ testBytes := by decide +kernel

def testSource : CString := ⟨testBytes, zero_not_mem_testBytes⟩

/-! ## The code -/

/-- The main program. -/
def testMain : List Instruction :=
  [Opcode.nop.instruction .unconditional Register.zero Register.zero 0,
   Opcode.pushi.instruction .unconditional Register.zero Register.zero 0x1024,
   Opcode.dup.instruction .unconditional Register.zero Register.zero 0,
   Opcode.popr.instruction .unconditional Register.t2 Register.zero 0,
   Opcode.storew.instruction .unconditional Register.t2 Register.t0 5192,
   Opcode.movr.instruction .unconditional Register.a0 Register.t2 0,
   Opcode.jmpal.instruction .unconditional Register.zero Register.zero 0x60,
   Opcode.movi.instruction .unconditional Register.a0 Register.zero 0x118,
   Opcode.jmpal.instruction .unconditional Register.zero Register.zero 0xC8,
   Opcode.movi.instruction .unconditional Register.a0 Register.zero 0x127,
   Opcode.jmpal.instruction .unconditional Register.zero Register.zero 0xC8,
   Opcode.jmp.instruction .unconditional Register.zero Register.zero 0x108]

/-- `halt` -/
def haltCode : List Instruction :=
  [Opcode.movi.instruction .unconditional Register.v0 Register.zero 0xFF,
   Opcode.int.instruction .unconditional Register.zero Register.zero 0xFF]

/-- All instructions, from address 0 on. -/
def testCode : List Instruction :=
  testMain ++ addUntilCarry 0x60 ++ printString 0x80 ++ printLine 0x80 ++ haltCode

/-- `hello` -/
def hello : Bytes := (CString.lit "Hello, World!\n").bytes

/-- `bye` -/
def bye : Bytes := (CString.lit "Bye!\n").bytes

/-- What follows the strings: numbers and a buffer of zeros. -/
def testNumbers : Bytes :=
  [0, 2, 15, 63, 245, 100, 0, 255, 15, 250, 255, 10, 0, 0, 0, 188, 26, 15, 0, 3, 0, 0, 0, 1, 241,
   255, 175, 15, 0, 0, 0, 255, 7, 0, 0, 0, 0, 0, 0, 0, 16]
    ++ List.replicate 106 0

/-- The code and the data of the program. -/
def testImage : Bytes := imageOf testCode (hello ++ [0] ++ bye ++ [0] ++ testNumbers)

/-- **The source is assembled to this image.** -/
theorem zlasmAssemble_testSource : zlasmAssemble testSource none = .ok testImage := by
  decide +kernel

/-! ## The main program -/

/-- The instructions, each at its address. -/
def testText : Text := listing 0 testCode

/-- The registers that the program uses. -/
def testRegisters : List Register :=
  [Register.pc, Register.v0, Register.a0, Register.t0, Register.t2, Register.lp, Register.sp]

/-- A machine that is about to execute the program. -/
structure TestStart (start : IsaMachine) : Prop where
  stands : start.At testText 0
  image : ∀ (i : ℕ) (b : Byte), testImage[i]? = some b → start.memory[i]? = some b
  registers : ∀ r, start.registers r = if r = Register.sp ∨ r = Register.bp then 4096 else 0

/-- The program at an address: its image and the registers it does not use are what they were. -/
structure TestAt (start : IsaMachine) (address : ℕ) (m : IsaMachine) : Prop where
  stands : m.At testText address
  length : m.memory.length = start.memory.length
  rom : ∀ i < romSize, m.memory[i]? = start.memory[i]?
  registers : ∀ r, r ≠ Register.zero → r ∉ testRegisters → m.registers r = start.registers r

section Main

variable {start m m' : IsaMachine} {address target depth : ℕ} {changed : List Register}

theorem TestStart.testAt (h : TestStart start) : TestAt start 0 start :=
  ⟨h.stands, rfl, fun _ _ => rfl, fun _ _ _ => rfl⟩

/-- A step that only changes registers. -/
theorem TestAt.goes (h : TestAt start address m) (hgoes : Goes testText target changed m m')
    (hsub : changed ⊆ testRegisters) : TestAt start target m' where
  stands := hgoes.stands
  length := by rw [hgoes.keeps.memory, h.length]
  rom i hi := by rw [hgoes.keeps.memory, h.rom i hi]
  registers r hr hmem := by
    rw [hgoes.keeps.registers r hr, h.registers r hr hmem]
    rintro (_ | ⟨_, hr'⟩)
    · exact hmem (by decide)
    · exact hmem (hsub hr')

/-- A step that writes to the RAM. -/
theorem TestAt.writes (h : TestAt start address m) {offset : ℕ} {data : Bytes}
    (hwrites : Writes testText target changed offset data m m') (hsub : changed ⊆ testRegisters)
    (hoffset : romSize ≤ offset) : TestAt start target m' where
  stands := hwrites.stands
  length := by rw [hwrites.memory, length_overlay, h.length]
  rom i hi := by
    rw [hwrites.memory, getElem?_overlay, if_neg (by omega), h.rom i hi]
  registers r hr hmem := by
    rw [hwrites.registers r hr, h.registers r hr hmem]
    rintro (_ | ⟨_, hr'⟩)
    · exact hmem (by decide)
    · exact hmem (hsub hr')

/-- What lies in the RAM spares the program. -/
theorem spares_testText {offset size : ℕ} (h : romSize ≤ offset) :
    Spares testText (List.range' offset size) := by
  refine spares_listing fun i hi => .inr ?_
  have hlow := (List.mem_range'_1.mp hi).1
  have hcode : 0 + instructionSize * testCode.length ≤ romSize := by decide
  omega

theorem TestAt.stackDepth (h : TestAt start address m) (hstart : TestStart start)
    (hsp : (m.registers Register.sp).toNat = romSize + 4 * depth) (hdepth : depth ≤ stackCapacity) :
    m.stackDepth = some depth := by
  refine stackDepth_eq_some.mpr ⟨?_, hdepth⟩
  rw [hsp, h.registers _ (by decide) (by decide), hstart.registers]
  rfl

/-- The stack has room while there is RAM for it. -/
theorem TestAt.hasRoom (h : TestAt start address m) (hstart : TestStart start)
    (hsp : (m.registers Register.sp).toNat = romSize + 4 * depth) (hdepth : depth < stackCapacity)
    (hinside : romSize + 4 * depth + 4 ≤ start.memory.length) : m.HasRoom testText depth where
  words := h.stackDepth hstart hsp hdepth.le
  room := hdepth
  inside := by rwa [hsp, h.length]
  reachable := by
    have hrom : romSize = 4096 := rfl
    have hwords : stackCapacity = 64 := rfl
    omega
  spares := spares_testText (by omega)

/-! ### The stack -/

/-- The program while it pushes words: the topmost one is `0x1024`. -/
structure TestStack (start : IsaMachine) (address depth : ℕ) (m : IsaMachine) : Prop where
  running : TestAt start address m
  sp : (m.registers Register.sp).toNat = romSize + 4 * depth
  t0 : m.registers Register.t0 = 0
  top : 0 < depth → m.topWord = 0x1024
  host : m.host = start.host

/-- The program has stopped without having printed anything. -/
structure TestOutOfMemory (start m : IsaMachine) : Prop where
  state : m.cpsr.ST = .errOutOfMemory
  host : m.host = start.host

/-- The word is pushed. -/
theorem TestStack.push (h : TestStack start address depth m)
    (hroom : m.HasRoom testText depth)
    (hwrites : Writes testText target [Register.sp] (m.registers Register.sp).toNat
      (LittleEndian.bytes 4 (0x1024 : Word).toNat) m m')
    (hsp : m'.registers Register.sp = m.registers Register.sp + 4) :
    TestStack start target (depth + 1) m' where
  running := h.running.writes hwrites (by decide) (by rw [h.sp]; omega)
  sp := by
    have hreach := hroom.reachable
    rw [hsp, toNat_target (by simp only [UInt32.reduceToNat]; omega), h.sp]
    simp only [UInt32.reduceToNat]
    omega
  t0 := by rw [hwrites.registers _ (by decide) (by decide), h.t0]
  top _ := topWord_of_writes hwrites hroom hsp
  host := hwrites.host.trans h.host

/-- `NOP` -/
theorem TestStart.nop (hstart : TestStart start) :
    ∃ m, Reaches start m ∧ TestStack start 8 0 m := by
  obtain ⟨m, hgoes, hhost⟩ := hstart.stands.nop ⟨0, rfl, rfl⟩ (by decide)
  refine ⟨m, .single hgoes.step, hstart.testAt.goes hgoes (by decide), ?_, ?_, ?_, hhost⟩
  · rw [hgoes.keeps.registers _ (by decide) (by decide), hstart.registers]
    rfl
  · rw [hgoes.keeps.registers _ (by decide) (by decide), hstart.registers]
    rfl
  · intro hpos
    omega

/-- `Pushi 0x1024` -/
theorem TestStack.pushi (h : TestStack start 8 0 m) (hstart : TestStart start) :
    if romSize + 4 ≤ start.memory.length then ∃ m', Reaches m m' ∧ TestStack start 16 1 m'
    else ∃ m', Reaches m m' ∧ TestOutOfMemory start m' := by
  split
  · rename_i hinside
    have hroom := h.running.hasRoom hstart h.sp (by decide) hinside
    obtain ⟨m', hwrites, hsp, -⟩ := h.running.stands.pushi hroom ⟨1, rfl, rfl⟩ (by decide)
    exact ⟨m', .single hwrites.step, h.push hroom hwrites hsp⟩
  · rename_i houtside
    obtain ⟨m', hstep, hstate, hhost⟩ := h.running.stands.pushi_outside
      (h.running.stackDepth hstart h.sp (by decide)) (by decide)
      (by rw [h.sp, h.running.length]; omega) ⟨1, rfl, rfl⟩
    exact ⟨m', .single hstep, hstate, hhost.trans h.host⟩

/-- `dup` -/
theorem TestStack.dup (h : TestStack start 16 1 m) (hstart : TestStart start)
    (hsize : romSize + 4 ≤ start.memory.length) :
    if romSize + 8 ≤ start.memory.length then ∃ m', Reaches m m' ∧ TestStack start 24 2 m'
    else ∃ m', Reaches m m' ∧ TestOutOfMemory start m' := by
  split
  · rename_i hinside
    have hroom := h.running.hasRoom hstart h.sp (by decide) hinside
    obtain ⟨m', hwrites, hsp, -⟩ := h.running.stands.dup hroom ⟨2, rfl, rfl⟩ (by decide)
    rw [h.top (by decide)] at hwrites
    exact ⟨m', .single hwrites.step, h.push hroom hwrites hsp⟩
  · rename_i houtside
    obtain ⟨m', hstep, hstate, hhost⟩ := h.running.stands.dup_outside
      (h.running.stackDepth hstart h.sp (by decide)) (by decide)
      (by rw [h.sp, h.running.length]; exact hsize) (by rw [h.sp, h.running.length]; omega)
      ⟨2, rfl, rfl⟩
    exact ⟨m', .single hstep, hstate, hhost.trans h.host⟩

/-- The program with one word on its stack, and the other one in `$t2`. -/
structure TestReady (start : IsaMachine) (address : ℕ) (m : IsaMachine) : Prop where
  running : TestAt start address m
  sp : m.registers Register.sp = 4100
  t2 : m.registers Register.t2 = 0x1024

/-- `popr $t2` -/
theorem TestStack.popr (h : TestStack start 24 2 m) (hstart : TestStart start)
    (hsize : romSize + 8 ≤ start.memory.length) :
    ∃ m', Reaches m m' ∧ TestReady start 32 m' ∧ m'.registers Register.t0 = 0 ∧
      m'.host = start.host := by
  obtain ⟨m', hgoes, hhost, hsp, ht2⟩ := h.running.stands.popr
    (h.running.stackDepth hstart h.sp (by decide)) (by rw [h.sp, h.running.length]; exact hsize)
    ⟨3, rfl, rfl⟩ (by decide) (by decide) (by decide)
  have hsp' : m.registers Register.sp = 4104 := UInt32.toNat_inj.mp h.sp
  refine ⟨m', .single hgoes.step, ⟨h.running.goes hgoes (by decide), ?_, ?_⟩, ?_,
    hhost.trans h.host⟩
  · rw [hsp, hsp']
    rfl
  · rw [ht2, h.top (by decide)]
  · rw [hgoes.keeps.registers _ (by decide) (by decide), h.t0]

/-- `storew $t2, $t0, 5192` -/
theorem TestReady.storew (h : TestReady start 32 m) (ht0 : m.registers Register.t0 = 0)
    (hhost : m.host = start.host) :
    if 5196 ≤ start.memory.length
      then ∃ m', Reaches m m' ∧ TestReady start 40 m' ∧ m'.host = start.host
      else ∃ m', Reaches m m' ∧ TestOutOfMemory start m' := by
  have haddress : (m.registers Register.t0).toNat + (5192 : Word).toNat = 5192 := by
    rw [ht0]
    rfl
  split
  · rename_i hinside
    obtain ⟨m', hwrites⟩ := h.running.stands.storew ⟨4, rfl, rfl⟩ (by decide) (by decide)
      (by rw [haddress, h.running.length]; exact hinside)
      (spares_testText (by rw [haddress]; decide)) (by decide)
    refine ⟨m', .single hwrites.step, ⟨h.running.writes hwrites (by simp) ?_, ?_, ?_⟩,
      hwrites.host.trans hhost⟩
    · rw [haddress]
      decide
    · rw [hwrites.registers _ (by decide) (by decide), h.sp]
    · rw [hwrites.registers _ (by decide) (by decide), h.t2]
  · rename_i houtside
    obtain ⟨m', hstep, hstate, hhost'⟩ := h.running.stands.storew_outside ⟨4, rfl, rfl⟩ (by decide)
      (by rw [haddress, h.running.length]; omega)
    exact ⟨m', .single hstep, hstate, hhost'.trans hhost⟩

/-! ### The calls -/

/-- A routine returns to the program. -/
theorem TestAt.returned (h : TestAt start address m) (hreturned : Returned changed m m')
    (hsub : changed ⊆ testRegisters) :
    TestAt start (m.registers Register.lp).toNat m' where
  stands := ⟨hreturned.keeps.state.trans h.stands.normal,
    h.stands.holds.of_eq hreturned.keeps.memory, congrArg UInt32.toNat hreturned.pc⟩
  length := by rw [hreturned.keeps.memory, h.length]
  rom i hi := by rw [hreturned.keeps.memory, h.rom i hi]
  registers r hr hmem := by
    rw [hreturned.keeps.registers r hr, h.registers r hr hmem]
    rintro (_ | ⟨_, hr'⟩)
    · exact hmem (by decide)
    · exact hmem (hsub hr')

/-- A part of the program. -/
theorem listing_le_testText {before code after : List Instruction} (h : testCode = before ++ code ++ after)
    (haddress : address = instructionSize * before.length) : listing address code ≤ testText := by
  have hle := listing_le 0 before code after
  rwa [Nat.zero_add, ← haddress, ← h] at hle

theorem listing_addUntilCarry : listing 0x60 (addUntilCarry 0x60) ≤ testText :=
  @listing_le_testText _ testMain _ (printString 0x80 ++ printLine 0x80 ++ haltCode) rfl rfl

theorem listing_printString : listing 0x80 (printString 0x80) ≤ testText :=
  @listing_le_testText _ (testMain ++ addUntilCarry 0x60) _ (printLine 0x80 ++ haltCode) rfl rfl

theorem listing_printLine : listing 0xC8 (printLine 0x80) ≤ testText :=
  @listing_le_testText _ (testMain ++ addUntilCarry 0x60 ++ printString 0x80) _ haltCode rfl rfl

/-- A call from the program goes on behind it. -/
theorem toNat_lp (h : m.At testText address) (hreach : address + 8 < 2 ^ 32)
    (hlp : m'.registers Register.lp = m.registers Register.pc + 8) :
    (m'.registers Register.lp).toNat = address + 8 := by
  rw [hlp, toNat_target (by rw [h.pc]; exact hreach), h.pc]
  rfl

/-- `movr $a0, $t2` and `jmpal #add_until_carry` -/
theorem TestReady.addUntilCarry (h : TestReady start 40 m) :
    ∃ m', Reaches m m' ∧ TestReady start 56 m' ∧ m'.host = m.host := by
  obtain ⟨m₁, h₁, hhost₁, ha0⟩ := h.running.stands.move rfl ⟨5, rfl, rfl⟩ (by decide)
    (fun _ => by decide) (by decide)
  obtain ⟨m₂, h₂, hhost₂, hlp⟩ := h₁.stands.call ⟨6, rfl, rfl⟩
  have ha0' : m₂.registers Register.a0 = 0x1024 := by
    rw [h₂.keeps.registers _ (by decide) (by decide), ha0]
    exact h.t2
  obtain ⟨m₃, h₃, hreturned, hhost₃, -⟩ := addUntilCarry_returns h₂.stands listing_addUntilCarry
    (by rw [ha0']; decide)
  have hat := ((h.running.goes h₁ (by decide)).goes h₂ (by decide)).returned hreturned (by decide)
  rw [toNat_lp h₁.stands (by decide) hlp] at hat
  refine ⟨m₃, ((Relation.ReflTransGen.single h₁.step).tail h₂.step).trans h₃, ⟨hat, ?_, ?_⟩,
    (hhost₃.trans hhost₂).trans hhost₁⟩
  · rw [hreturned.keeps.registers _ (by decide) (by decide),
      h₂.keeps.registers _ (by decide) (by decide), h₁.keeps.registers _ (by decide) (by decide),
      h.sp]
  · rw [hreturned.keeps.registers _ (by decide) (by decide),
      h₂.keeps.registers _ (by decide) (by decide), h₁.keeps.registers _ (by decide) (by decide),
      h.t2]

/-- A string that is in one memory is in another one with the same bytes. -/
theorem StringAt.mono {memory memory' : Bytes}
    (h : ∀ (i : ℕ) (b : Byte), memory[i]? = some b → memory'[i]? = some b) {string : Bytes} :
    ∀ {address : ℕ}, StringAt memory address string → StringAt memory' address string := by
  induction string with
  | nil => exact fun hstring => h _ _ hstring
  | cons c rest ih => exact fun ⟨hc, hzero, hrest⟩ => ⟨h _ _ hc, hzero, ih hrest⟩

/-- What a line leaves in the registers. -/
structure TestPrinted (start : IsaMachine) (address pointer : ℕ) (string output : Bytes)
    (m : IsaMachine) : Prop where
  ready : TestReady start address m
  lp : (m.registers Register.lp).toNat = address
  a0 : m.registers Register.a0 = 0
  t0 : (m.registers Register.t0).toNat = pointer + string.length
  host : m.host = { start.host with output := output ++ (string ++ [10]) }

/-- **A line**: `movi $a0, #string` and `jmpal #print_line`. -/
theorem TestReady.printLine (h : TestReady start address m) (hstart : TestStart start)
    (hsize : 5196 ≤ start.memory.length) (haddress : address < romSize) {pointer : Word}
    {string output : Bytes}
    (hmovi : testText address (Opcode.movi.instruction .unconditional Register.a0 Register.zero
      pointer))
    (hcall : testText (address + 8) (Opcode.jmpal.instruction .unconditional Register.zero
      Register.zero 0xC8))
    (hstring : StringAt testImage pointer.toNat string)
    (hpointer : pointer.toNat + string.length < romSize)
    (hhost : m.host = { start.host with output := output }) :
    ∃ m', Reaches m m' ∧
      TestPrinted start (address + 16) pointer.toNat string output m' := by
  have hrom : romSize = 4096 := rfl
  obtain ⟨m₁, h₁, hhost₁, ha0⟩ := h.running.stands.move rfl hmovi (by decide)
    (fun hrs => by cases hrs) (by omega)
  obtain ⟨m₂, h₂, hhost₂, hlp⟩ := h₁.stands.call hcall
  have hat₂ := (h.running.goes h₁ (by decide)).goes h₂ (by decide)
  have hlp' := toNat_lp h₁.stands (by omega) hlp
  have hsp₂ : m₂.registers Register.sp = 4100 := by
    rw [h₂.keeps.registers _ (by decide) (by decide), h₁.keeps.registers _ (by decide) (by decide),
      h.sp]
  have hpointer₂ : m₂.registers Register.a0 = pointer :=
    (h₂.keeps.registers _ (by decide) (by decide)).trans ha0
  have hroom : m₂.HasRoom testText 1 :=
    hat₂.hasRoom hstart (by rw [hsp₂]; rfl) (by decide)
      (Nat.le_trans (by decide) hsize)
  have hsp₂' : (m₂.registers Register.sp).toNat = romSize + 4 := by
    rw [hsp₂]
    rfl
  have hstring₂ : StringAt m₂.memory (m₂.registers Register.a0).toNat string := by
    rw [hpointer₂]
    refine hstring.mono fun i b hi => ?_
    have hlt : i < romSize :=
      ((List.getElem?_eq_some_iff.mp hi).1).trans_le (by decide +kernel)
    rw [hat₂.rom i hlt]
    exact hstart.image i b hi
  obtain ⟨m₃, h₃, hprinted⟩ := printLine_returns h₂.stands listing_printLine
    listing_printString hroom hstring₂ (by rw [hpointer₂]; omega)
    (by rw [hpointer₂, hsp₂']; omega)
  have hpc₃ : (m₃.registers Register.pc).toNat = address + 16 := by rw [hprinted.pc, hlp']
  refine ⟨m₃, ((Relation.ReflTransGen.single h₁.step).tail h₂.step).trans h₃,
    ⟨⟨⟨⟨?_, ?_, hpc₃⟩, ?_, ?_, ?_⟩, ?_, ?_⟩, ?_, hprinted.a0, ?_, ?_⟩⟩
  · exact hprinted.state.trans h₂.stands.normal
  · refine h₂.stands.holds.overlay hprinted.memory (spares_testText ?_)
    rw [hsp₂']
    omega
  · rw [hprinted.memory, length_overlay, hat₂.length]
  · intro i hi
    rw [hprinted.memory, getElem?_overlay, if_neg (by omega), hat₂.rom i hi]
  · intro r hr hmem
    have hmem' := hmem
    simp only [testRegisters, List.mem_cons, not_or] at hmem'
    rw [hprinted.registers r hr (by simp [hmem']), hat₂.registers r hr hmem]
  · rw [hprinted.registers _ (by decide) (by decide), hsp₂]
  · rw [hprinted.registers _ (by decide) (by decide), h₂.keeps.registers _ (by decide) (by decide),
      h₁.keeps.registers _ (by decide) (by decide), h.t2]
  · rw [hprinted.registers _ (by decide) (by decide), hlp']
  · rw [hprinted.t0, hpointer₂]
  · rw [hprinted.host, hhost₂, hhost₁, hhost]

/-! ### The end -/

/-- The registers that `execution_equivalence_tests.c` expects. -/
def expectedRegisters (r : Register) : Word :=
  ([(Register.v0, 0xFF), (Register.t0, 0x12C), (Register.t2, 0x1024), (Register.lp, 0x58),
    (Register.sp, 0x1004), (Register.bp, 0x1000), (Register.pc, 0x118)].lookup r).getD 0

/-- The program has halted with its two lines printed. -/
structure TestHalted (start m : IsaMachine) : Prop where
  state : m.cpsr.ST = .halted
  registers : ∀ r, r ≠ Register.zero → m.registers r = expectedRegisters r
  host : m.host
    = { start.host with output := start.host.output ++ (hello ++ [10] ++ (bye ++ [10])) }

/-- The registers that the program does not use. -/
theorem expectedRegisters_of_not_mem : ∀ r, r ∉ testRegisters →
    expectedRegisters r = if r = Register.sp ∨ r = Register.bp then 4096 else 0 := by decide

/-- `jmp #halt` and the two instructions there. -/
theorem TestPrinted.halt {output : Bytes} (h : TestPrinted start 88 0x127 bye output m)
    (hstart : TestStart start) :
    ∃ m', Reaches m m' ∧ m'.cpsr.ST = .halted ∧ m'.host = m.host ∧
      ∀ r, r ≠ Register.zero → m'.registers r = expectedRegisters r := by
  obtain ⟨m₁, h₁, hhost₁⟩ := h.ready.running.stands.jmp ⟨11, rfl, rfl⟩ rfl
  obtain ⟨m₂, h₂, hhost₂, hv0⟩ := h₁.stands.move rfl ⟨33, rfl, rfl⟩ (by decide)
    (fun hrs => by cases hrs) (by decide)
  obtain ⟨m₃, hstep, hstate, hregisters, -, hhost₃⟩ := h₂.stands.halt ⟨34, rfl, rfl⟩
  have hpc : m₂.registers Register.pc = 0x110 := UInt32.toNat_inj.mp h₂.stands.pc
  have hlp : m.registers Register.lp = 0x58 := UInt32.toNat_inj.mp h.lp
  have ht0 : m.registers Register.t0 = 0x12C := UInt32.toNat_inj.mp h.t0
  refine ⟨m₃, ((Relation.ReflTransGen.single h₁.step).tail h₂.step).tail hstep, hstate,
    (hhost₃.trans hhost₂).trans hhost₁, fun r hr => ?_⟩
  rw [hregisters]
  by_cases hr' : r = Register.pc
  · rw [hr', next_pc, hpc]
    rfl
  · rw [next_registers hr hr']
    by_cases hv0' : r = Register.v0
    · rw [hv0', hv0]
      rfl
    · rw [h₂.keeps.registers r hr (by simp [hr', hv0']), h₁.keeps.registers r hr (by simp [hr'])]
      by_cases hmem : r ∈ testRegisters
      · simp only [testRegisters, List.mem_cons, List.not_mem_nil, or_false] at hmem
        rcases hmem with rfl | rfl | rfl | rfl | rfl | rfl | rfl
        · exact absurd rfl hr'
        · exact absurd rfl hv0'
        · exact h.a0
        · exact ht0
        · exact h.ready.t2
        · exact hlp
        · exact h.ready.sp
      · rw [h.ready.running.registers r hr hmem, hstart.registers, expectedRegisters_of_not_mem r hmem]

/-- The first half of the program: it depends on the memory. -/
theorem TestStart.storew (hstart : TestStart start) :
    if 5196 ≤ start.memory.length
      then ∃ m, Reaches start m ∧ TestReady start 40 m ∧ m.host = start.host
      else ∃ m, Reaches start m ∧ TestOutOfMemory start m := by
  have hrom : romSize = 4096 := rfl
  obtain ⟨m₁, h₁, hnop⟩ := hstart.nop
  have hpushi := hnop.pushi hstart
  by_cases hword : romSize + 4 ≤ start.memory.length
  · rw [if_pos hword] at hpushi
    obtain ⟨m₂, h₂, hpushed⟩ := hpushi
    have hdup := hpushed.dup hstart hword
    by_cases hwords : romSize + 8 ≤ start.memory.length
    · rw [if_pos hwords] at hdup
      obtain ⟨m₃, h₃, hdupped⟩ := hdup
      obtain ⟨m₄, h₄, hready, ht0, hhost⟩ := hdupped.popr hstart hwords
      have hreaches := (h₁.trans h₂).trans (h₃.trans h₄)
      have hstorew := hready.storew ht0 hhost
      split at hstorew
      · rename_i hsize
        obtain ⟨m₅, h₅, hstored⟩ := hstorew
        rw [if_pos hsize]
        exact ⟨m₅, hreaches.trans h₅, hstored⟩
      · rename_i hsize
        obtain ⟨m₅, h₅, hstopped⟩ := hstorew
        rw [if_neg hsize]
        exact ⟨m₅, hreaches.trans h₅, hstopped⟩
    · -- no memory for the second word
      rw [if_neg hwords] at hdup
      rw [if_neg (by omega)]
      obtain ⟨m₃, h₃, hstopped⟩ := hdup
      exact ⟨m₃, (h₁.trans h₂).trans h₃, hstopped⟩
  · -- no memory for the first word
    rw [if_neg hword] at hpushi
    rw [if_neg (by omega)]
    obtain ⟨m₂, h₂, hstopped⟩ := hpushi
    exact ⟨m₂, h₁.trans h₂, hstopped⟩

/-- The second half: the calls. -/
theorem TestReady.finish (h : TestReady start 40 m) (hstart : TestStart start)
    (hsize : 5196 ≤ start.memory.length) (hhost : m.host = start.host) :
    ∃ m', Reaches m m' ∧ TestHalted start m' := by
  obtain ⟨m₁, h₁, hready, hhost₁⟩ := h.addUntilCarry
  obtain ⟨m₂, h₂, hhello⟩ := hready.printLine hstart hsize (by decide) ⟨7, rfl, rfl⟩ ⟨8, rfl, rfl⟩
    (show StringAt testImage (0x118 : Word).toNat hello by decide +kernel) (by decide +kernel)
    (hhost₁.trans hhost)
  obtain ⟨m₃, h₃, hbye⟩ := hhello.ready.printLine hstart hsize (by decide) ⟨9, rfl, rfl⟩
    ⟨10, rfl, rfl⟩ (show StringAt testImage (0x127 : Word).toNat bye by decide +kernel)
    (by decide +kernel) hhello.host
  obtain ⟨m₄, h₄, hstate, hhost₄, hregisters⟩ := hbye.halt hstart
  refine ⟨m₄, (h₁.trans h₂).trans (h₃.trans h₄), hstate, hregisters, ?_⟩
  rw [hhost₄, hbye.host, List.append_assoc]

/-- **The run** of the program. -/
theorem TestStart.run (hstart : TestStart start) :
    (5196 ≤ start.memory.length → ∃ m, Reaches start m ∧ TestHalted start m) ∧
      (start.memory.length < 5196 → ∃ m, Reaches start m ∧ TestOutOfMemory start m) := by
  have hstorew := hstart.storew
  constructor
  · intro hsize
    rw [if_pos hsize] at hstorew
    obtain ⟨m, hreaches, hready, hhost⟩ := hstorew
    obtain ⟨m', hreaches', hhalted⟩ := hready.finish hstart hsize hhost
    exact ⟨m', hreaches.trans hreaches', hhalted⟩
  · intro hsize
    rwa [if_neg (Nat.not_le.mpr hsize)] at hstorew

end Main

/-! ## In the emulator -/

section Emulator

variable {ramSize : ℕ} {input : Bytes}

theorem isa_cpsr (vm : VirtualMachine) : (isa vm).cpsr = vm.cpsr := rfl

/-- A freshly initialised machine that has loaded the image. -/
theorem testStart_rawMachine :
    TestStart (isa (rawMachine ramSize input testImage)) := by
  have hfits : testImage.length ≤ romSize := by decide +kernel
  obtain ⟨rest, hflat⟩ := @flat_rawMachine ramSize input testImage hfits
  have himage : ∀ (i : ℕ) (b : Byte), testImage[i]? = some b →
      (isa (rawMachine ramSize input testImage)).memory[i]? = some b := by
    intro i b hi
    show (rawMachine ramSize input testImage).flat[i]? = some b
    rw [hflat, List.getElem?_append_left (List.getElem?_eq_some_iff.mp hi).1, hi]
  have hlength : (isa (rawMachine ramSize input testImage)).memory.length = romSize + ramSize :=
    (length_flat _).trans (memoryEnd_rawMachine hfits)
  have hslice : ∀ k < testCode.length,
      slice (isa (rawMachine ramSize input testImage)).memory (0 + instructionSize * k) instructionSize
        = slice testImage (0 + instructionSize * k) instructionSize := by
    intro k hk
    have hcode : instructionSize * testCode.length ≤ testImage.length := by decide +kernel
    refine List.ext_getElem? fun i => ?_
    rw [getElem?_slice, getElem?_slice]
    split
    · rw [instructionSize] at *
      have hlt : 0 + 8 * k + i < testImage.length := by omega
      rw [List.getElem?_eq_getElem hlt, himage _ _ (List.getElem?_eq_getElem hlt)]
    · rfl
  have hnormal : (isa (rawMachine ramSize input testImage)).cpsr.ST = .normal := by
    rw [isa_cpsr]
    exact normal_rawMachine hfits
  have hreach : 0 + instructionSize * testCode.length ≤ 2 ^ 32 := by decide
  refine ⟨⟨hnormal, holds_listing ?_ hreach fun k hk => ?_, ?_⟩, himage, fun r => ?_⟩
  · rw [hlength]
    exact Nat.le_trans (by decide) (Nat.le_add_right romSize ramSize)
  · rw [hslice k hk]
    revert k
    decide +kernel
  · rw [isa_registers_of_ne (by decide), pc_rawMachine hfits]
    rfl
  · rw [rawMachine_eq hfits]
    have hregisters : ∀ r, (isa (vmStart (vmInitialize 0))).registers r
        = if r = Register.sp ∨ r = Register.bp then 4096 else 0 := by decide +kernel
    exact hregisters r

/-- **The test program**, from its source to the end of its run.  With memory at the address it stores
to it halts, with the registers that the test expects and two lines printed; without, it stops out of
memory and has printed nothing. -/
theorem vmSteps_testProgram {image : Bytes} (himage : zlasmAssemble testSource none = .ok image)
    (hsize : romSize + ramSize ≤ sizeMax) :
    (1100 ≤ ramSize → ∃ n, TestHalted (isa (rawMachine ramSize input image))
      (isa (vmSteps n (rawMachine ramSize input image)))) ∧
    (ramSize < 1100 → ∃ n, TestOutOfMemory (isa (rawMachine ramSize input image))
      (isa (vmSteps n (rawMachine ramSize input image)))) := by
  obtain rfl := Except.ok.inj (himage.symm.trans zlasmAssemble_testSource)
  have hfits : testImage.length ≤ romSize := by decide +kernel
  have hend := @memoryEnd_rawMachine ramSize input testImage hfits
  have hlength : (isa (rawMachine ramSize input testImage)).memory.length = romSize + ramSize :=
    (length_flat _).trans hend
  have hrom : romSize = 4096 := rfl
  obtain ⟨hhalts, hstops⟩ := (@testStart_rawMachine ramSize input).run
  rw [hlength] at hhalts hstops
  constructor
  · intro hram
    obtain ⟨m, hreaches, hhalted⟩ := hhalts (by omega)
    obtain ⟨n, rfl⟩ := exists_vmSteps_of_reaches (hend.trans_le hsize) hreaches
    exact ⟨n, hhalted⟩
  · intro hram
    obtain ⟨m, hreaches, hstopped⟩ := hstops (by omega)
    obtain ⟨n, rfl⟩ := exists_vmSteps_of_reaches (hend.trans_le hsize) hreaches
    exact ⟨n, hstopped⟩

/-- A machine with a page of RAM, and one without any. -/
theorem vmSteps_testProgram_page :
    (∃ n, TestHalted (isa (rawMachine 4096 [] testImage))
      (isa (vmSteps n (rawMachine 4096 [] testImage)))) ∧
    ∃ n, TestOutOfMemory (isa (rawMachine 0 [] testImage))
      (isa (vmSteps n (rawMachine 0 [] testImage))) :=
  ⟨(@vmSteps_testProgram 4096 [] _ zlasmAssemble_testSource (by decide)).1 (by decide),
    (@vmSteps_testProgram 0 [] _ zlasmAssemble_testSource (by decide)).2 (by decide)⟩

end Emulator

end Zlvm
