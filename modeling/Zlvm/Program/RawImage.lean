import Zlvm.Asm.Raw
import Zlvm.Vm.Run

/-!
# A raw image in the machine

What the machine fetches from a raw image that was loaded as a dump: the statements of the source.

* `ImmediateOf`, `StatementOf` — what an operand and a statement say about an instruction.
* `statementOf_decode` — an encoded statement decodes to what it says.
* `vmFetchInstruction_dump` — a fetch from a dump decodes the bytes at `$pc`.
* **`zlasmAssemble_fetch`** — every statement is fetched from the offset of its line.
-/

namespace Zlvm

open Buffer Loop VirtualMachine

/-! ## The meaning of a statement -/

/-- What the immediate of a statement is: the offset of the only line with a label, or the value of
a literal. -/
inductive ImmediateOf (lines : List PlacedLine) (token : Token) (immediate : Word) : Prop
  | label (type : token.type = .labelUse) (k : ℕ) (definition : LabelAt lines token.value k)
      (unique : ∀ k', LabelAt lines token.value k' → k' = k)
      (value : immediate.toNat = rawOffset lines k)
  | char (type : token.type = .charLiteral) (c : Byte) (literal : tokenGetCharValue token = .ok c)
      (value : immediate = charToWord c)
  | int (notLabel : token.type ≠ .labelUse) (notChar : token.type ≠ .charLiteral) (n : ℕ)
      (literal : tokenGetIntValue token = .ok n) (value : immediate.toNat = n)

/-- What a statement of a program says about an instruction: its opcode and its operands, with the
defaults of those that are absent. -/
structure StatementOf (lines : List PlacedLine) (statement : Statement)
    (instruction : Instruction) : Prop where
  opcode : ∃ op, stringToOpcode (lineToUpper statement.opcode.value) = some op ∧
    instruction.opcode = op.toWord
  condition : ∃ condition, parseOptional parseCondition .unconditional statement.cond
    = .ok condition ∧ instruction.condition = condition.toWord
  register1 : parseOptional parseRegister 0 statement.reg1 = .ok instruction.register1.toNat
  register2 : parseOptional parseRegister 0 statement.reg2 = .ok instruction.register2.toNat
  absent : statement.imm = none → instruction.immediate = 0
  immediate : ∀ token, statement.imm = some token →
    ImmediateOf lines token instruction.immediate

/-- A register number is one of `R_TOTAL`. -/
theorem parseRegister_lt {token : Token} {register : ℕ}
    (h : parseRegister token = .ok register) : register < registerTotal := by
  unfold parseRegister at h
  split at h
  · rw [bind_eq_ok] at h
    obtain ⟨-, -, h⟩ := h
    refine foldlM_induction (fun _ index => index < registerTotal) h (by decide) ?_
    intro done character rest index index' _ _ hstep
    simp only [registerDigit, bind_eq_ok, require_eq_ok] at hstep
    obtain ⟨-, -, -, hlt, hstep⟩ := hstep
    obtain rfl := Except.ok.inj hstep
    exact hlt.2
  · simp only [bind_eq_ok, require_eq_ok] at h
    obtain ⟨-, hlt, h⟩ := h
    obtain rfl := Except.ok.inj h
    exact hlt

theorem toNat_parseRegister {token : Option Token} {register : ℕ}
    (h : parseOptional parseRegister 0 token = .ok register) :
    (UInt8.ofNat register).toNat = register := by
  have hlt : register < registerTotal := by
    cases token with
    | none =>
        obtain rfl := Except.ok.inj h
        decide
    | some token => exact parseRegister_lt h
  rw [registerTotal] at hlt
  rw [UInt8.toNat_ofNat', Nat.mod_eq_of_lt (by omega)]

/-- A literal is its value. -/
theorem immediateOf_literal {lines : List PlacedLine} {token : Token} {immediate : Word}
    (htype : token.type ≠ .labelUse) (h : literalImmediate token = .ok immediate) :
    ImmediateOf lines token immediate := by
  unfold literalImmediate at h
  split at h
  · rename_i hchar
    cases hvalue : tokenGetCharValue token with
    | error e =>
        rw [hvalue] at h
        cases h
    | ok c =>
        rw [hvalue] at h
        exact .char hchar c hvalue (Except.ok.inj h).symm
  · rename_i hchar
    simp only [bind_eq_ok, require_eq_ok] at h
    obtain ⟨n, hvalue, -, hle, h⟩ := h
    obtain rfl := Except.ok.inj h
    rw [wordMax] at hle
    exact .int htype hchar n hvalue (by rw [UInt32.toNat_ofNat', Nat.mod_eq_of_lt (by omega)])

/-- **The immediate of a raw image.** -/
theorem immediateOf_rawImmediate {context : AssemblerContext} {labels : List LabelInfo}
    (hlabels : asmProcessLabels context = .ok labels) (hdistinct : DistinctLabels context.lines)
    {token : Token} {immediate : Word} (h : rawImmediate labels token = .ok immediate) :
    ImmediateOf context.lines token immediate := by
  unfold rawImmediate at h
  split at h
  · rename_i htype
    split at h
    · cases h
    · rename_i label hfind
      simp only [bind_eq_ok, require_eq_ok] at h
      obtain ⟨-, hle, h⟩ := h
      obtain rfl := Except.ok.inj h
      have hname : label.name = token.value := by simpa using List.find?_some hfind
      obtain ⟨k, hk, haddress⟩ :=
        (mem_labels hlabels label).mp (List.mem_of_find?_eq_some hfind)
      rw [hname] at hk
      rw [wordMax] at hle
      refine .label htype k hk (fun k' hk' => hdistinct.index_eq hk' hk) ?_
      rw [UInt32.toNat_ofNat', Nat.mod_eq_of_lt (by omega), haddress]
  · rename_i htype
    exact immediateOf_literal htype h

/-- **An encoded statement decodes** to what it says. -/
theorem statementOf_decode {context : AssemblerContext} {labels : List LabelInfo}
    (hlabels : asmProcessLabels context = .ok labels) (hdistinct : DistinctLabels context.lines)
    {statement : Statement} {bytes : Bytes} (h : encodeRawStatement labels statement = .ok bytes) :
    ∃ instruction, instructionDecode bytes = some instruction ∧
      StatementOf context.lines statement instruction := by
  obtain ⟨op, condition, register1, register2, immediate, hop, hcondition, hregister1, hregister2,
    himmediate, hencode⟩ := encodeRawStatement_eq_ok h
  refine ⟨_, instructionDecode_instructionEncode hencode, ⟨op, hop, rfl⟩,
    ⟨condition, hcondition, rfl⟩, ?_, ?_, fun hnone => ?_, fun token htoken => ?_⟩
  · rw [toNat_parseRegister hregister1, hregister1]
  · rw [toNat_parseRegister hregister2, hregister2]
  · rw [hnone] at himmediate
    exact (Except.ok.inj himmediate).symm
  · rw [htoken] at himmediate
    exact immediateOf_rawImmediate hlabels hdistinct himmediate

/-! ## Fetching from a dump -/

section Dump

variable {ramSize : ℕ} {program : Bytes}

/-- A dump that fits lies at the beginning of the memory. -/
theorem flat_vmLoadDump (hsize : program.length ≤ romSize) :
    ∃ rest, (vmLoadDump (vmInitialize ramSize) program).flat = program ++ rest := by
  rw [vmLoadDump, if_neg (Nat.not_lt.mpr hsize)]
  have hfront : overlay (List.replicate romSize 0) 0 program
      = program ++ (List.replicate romSize 0).drop program.length :=
    overlay_front _ _ (by rw [List.length_replicate]; exact hsize)
  refine ⟨(List.replicate romSize 0).drop program.length ++ List.replicate ramSize 0, ?_⟩
  rw [← List.append_assoc, ← hfront]
  rfl

/-- **Fetching from a dump** decodes the eight bytes at `$pc`. -/
theorem vmFetchInstruction_dump (hram : romSize + ramSize ≤ sizeMax)
    (hsize : program.length ≤ romSize) {offset : ℕ}
    (hoffset : offset + instructionSize ≤ program.length) :
    ∃ instruction, instructionDecode (slice program offset instructionSize) = some instruction ∧
      vmFetchInstruction ((vmLoadDump (vmInitialize ramSize) program).setRegister Register.pc
          (UInt32.ofNat offset))
        = ((vmLoadDump (vmInitialize ramSize) program).setRegister Register.pc
            (UInt32.ofNat (offset + instructionSize)), instruction) := by
  obtain ⟨rest, hflat⟩ := @flat_vmLoadDump ramSize program hsize
  have hend : (vmLoadDump (vmInitialize ramSize) program).memoryEnd = romSize + ramSize := by
    rw [vmLoadDump, if_neg (Nat.not_lt.mpr hsize)]
    exact congrArg (romSize + ·) List.length_replicate
  generalize vmLoadDump (vmInitialize ramSize) program = vm at hflat hend ⊢
  have hsmall : ∀ {n}, n ≤ program.length → (UInt32.ofNat n).toNat = n := by
    intro n hn
    rw [romSize] at hsize
    rw [UInt32.toNat_ofNat', Nat.mod_eq_of_lt (by omega)]
  have hbytes : instructionBytes (vm.setRegister Register.pc (UInt32.ofNat offset))
      = slice program offset instructionSize := by
    rw [slice_eq_map program 0 hoffset, instructionBytes]
    refine List.map_congr_left fun index hindex => ?_
    have hlt : index < instructionSize := List.mem_range.mp hindex
    rw [setRegister_self, ← UInt32.ofNat_add, hsmall (by omega)]
    show vm.flat.getD (offset + index) 0 = program.getD (offset + index) 0
    rw [hflat, List.getD_append _ _ _ _ (by omega)]
  have hacc : (vm.setRegister Register.pc (UInt32.ofNat offset)).Accessible
      ((vm.setRegister Register.pc (UInt32.ofNat offset)).registers Register.pc).toNat
      instructionSize := by
    rw [setRegister_self, hsmall (by omega)]
    exact ⟨hend.trans_le hram, by show _ ≤ vm.memoryEnd; omega⟩
  obtain ⟨instruction, hdecode, hfetch⟩ :=
    @vmFetchInstruction_eq (vm.setRegister Register.pc (UInt32.ofNat offset))
  rw [hbytes] at hdecode
  rw [if_pos hacc, setRegister_setRegister, setRegister_self] at hfetch
  refine ⟨instruction, hdecode, hfetch.trans ?_⟩
  rw [instructionSize, UInt32.ofNat_add]
  rfl

end Dump

/-! ## The whole way -/

/-- **A raw image is faithful.**  In a freshly initialised machine that has loaded the image of a
source, every statement of the source is fetched from the offset of its line, and the program
counter then is the offset of the next line.  The RAM is one that the machine can address. -/
theorem zlasmAssemble_fetch {source : CString} {filename : Option CString} {output : Bytes}
    (h : zlasmAssemble source filename = .ok output) (hsize : output.length ≤ romSize)
    {ramSize : ℕ} (hram : romSize + ramSize ≤ sizeMax) :
    ∃ context, assembleContext source = .ok context ∧
      ∀ k line statement, context.lines[k]? = some line → line.body = .stmt statement →
        ∃ instruction, StatementOf context.lines statement instruction ∧
          vmFetchInstruction ((vmLoadDump (vmInitialize ramSize) output).setRegister Register.pc
              (UInt32.ofNat (rawOffset context.lines k)))
            = ((vmLoadDump (vmInitialize ramSize) output).setRegister Register.pc
                (UInt32.ofNat (rawOffset context.lines (k + 1))), instruction) := by
  unfold zlasmAssemble at h
  dsimp only at h
  split at h
  · rename_i image hrun
    obtain rfl := Except.ok.inj h
    simp only [bind_eq_ok] at hrun
    obtain ⟨context, hcontext, labels, hlabels, htranslate⟩ := hrun
    refine ⟨context, hcontext, fun k line statement hline hbody => ?_⟩
    have hdistinct := (assembleContext_placed hcontext).1.labels
    obtain ⟨hbytes, hinside⟩ := asmTranslate_slice htranslate hline
    have hline_size : line.size = instructionSize := by rw [PlacedLine.size, hbody, PlacedBody.size]
    rw [rawLineBytes, hbody, hline_size] at hbytes
    rw [hline_size] at hinside
    obtain ⟨instruction, hdecode, hmeaning⟩ := statementOf_decode hlabels hdistinct hbytes
    obtain ⟨fetched, hdecode', hfetch⟩ := vmFetchInstruction_dump hram hsize hinside
    obtain rfl := Option.some.inj (hdecode.symm.trans hdecode')
    refine ⟨instruction, hmeaning, ?_⟩
    rw [hfetch, rawOffset_succ hline, hline_size]
  · cases h

/-- A jump over a byte, and the image of it. -/
def jumpSource : CString :=
  CString.lit "jmp #target\n.byte 0xff\ntarget:\nmovi zs $t0, 0x12345678\n"

def jumpImage : Bytes :=
  [0x14, 0, 0, 0, 9, 0, 0, 0, 0xFF, 7, 1, 0x0A, 0, 0x78, 0x56, 0x34, 0x12]

theorem zlasmAssemble_fetch_jump : ∃ context, assembleContext jumpSource = .ok context ∧
    ∀ k line statement, context.lines[k]? = some line → line.body = .stmt statement →
      ∃ instruction, StatementOf context.lines statement instruction ∧
        vmFetchInstruction ((vmLoadDump (vmInitialize 16) jumpImage).setRegister Register.pc
            (UInt32.ofNat (rawOffset context.lines k)))
          = ((vmLoadDump (vmInitialize 16) jumpImage).setRegister Register.pc
              (UInt32.ofNat (rawOffset context.lines (k + 1))), instruction) :=
  @zlasmAssemble_fetch jumpSource none jumpImage (by decide +kernel) (by decide) 16 (by decide)

end Zlvm
