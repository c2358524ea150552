import Zlvm.Program.Execution
import Zlvm.Program.Labels

/-!
# Executing a linked program

What the emulator does with the executable of several sources, in the terms of the sources.

* `LinkedStatement` — what a statement of an object says about an instruction of the executable;
  `linkedText` — the statements of all objects, each at the linked address of its line.
* `LinkedObjects.head_of_line`, `LinkedObjects.immediate_of_line` — the two halves of a linked
  instruction: relocations meet the second only.
* `LinkedObjects.decodes`, `LinkedObjects.carries` — the executable, and the machine that has loaded
  it, hold this text.
* **`zlLinkObjects_executes`** — the machine starts at the entry label and executes the statements
  of the objects, step by step, as long as it stands at statements and does not write over them.
-/

namespace Zlvm

open Buffer Loop VirtualMachine

/-! ## The text of the objects -/

/-- What the immediate of a statement is: the offset of a label of the same section, the address
that any other label denotes, or the value of a literal. -/
inductive LinkedImmediate (contexts : List AssemblerContext) (placed : List ZlImageSection)
    (object : ℕ) (line : PlacedLine) (token : Token) (immediate : Word) : Prop
  | near (type : token.type = .labelUse) (definition : PlacedLine)
      (defines : Defines contexts object token.value definition)
      (same : definition.sectionIndex = line.sectionIndex)
      (value : immediate.toNat = definition.sectionOffset)
  | far (type : token.type = .labelUse)
      (notLocal : ¬LocalReference contexts object line token.value) (address : ℕ)
      (denotes : Denotes contexts placed object token.value address)
      (value : immediate.toNat = address)
  | literal (notLabel : token.type ≠ .labelUse) (value : literalImmediate token = .ok immediate)

/-- What a statement of an object says about an instruction of the executable. -/
structure LinkedStatement (contexts : List AssemblerContext) (placed : List ZlImageSection)
    (object : ℕ) (line : PlacedLine) (statement : Statement) (instruction : Instruction) :
    Prop where
  opcode : ∃ op, stringToOpcode (lineToUpper statement.opcode.value) = some op ∧
    instruction.opcode = op.toWord
  condition : ∃ condition, parseOptional parseCondition .unconditional statement.cond
    = .ok condition ∧ instruction.condition = condition.toWord
  register1 : parseOptional parseRegister 0 statement.reg1 = .ok instruction.register1.toNat
  register2 : parseOptional parseRegister 0 statement.reg2 = .ok instruction.register2.toNat
  absent : statement.imm = none → instruction.immediate = 0
  immediate : ∀ token, statement.imm = some token →
    LinkedImmediate contexts placed object line token instruction.immediate

/-- The statements of all objects, each at the address of its line. -/
def linkedText (contexts : List AssemblerContext) (placed : List ZlImageSection) : Text :=
  fun address instruction => ∃ object context line statement,
    contexts[object]? = some context ∧ line ∈ context.lines ∧ line.body = .stmt statement ∧
      lineAddress contexts placed object line = some address ∧
      LinkedStatement contexts placed object line statement instruction

section Unique

variable {contexts : List AssemblerContext} {images : List ZlImage}
  {placed : List ZlImageSection} {object : ℕ} {line : PlacedLine} {statement : Statement}

theorem LinkedImmediate.unique (h : List.Forall₂ ObjectOf contexts images) {token : Token}
    {immediate immediate' : Word}
    (hi : LinkedImmediate contexts placed object line token immediate)
    (hi' : LinkedImmediate contexts placed object line token immediate') :
    immediate = immediate' := by
  rcases hi with ⟨htype, definition, hdefines, hsame, hvalue⟩ | ⟨htype, hfar, address, hdenotes,
    hvalue⟩ | ⟨hlabel, hvalue⟩
  · rcases hi' with ⟨-, definition', hdefines', hsame', hvalue'⟩ | ⟨-, hfar', -⟩ | ⟨hlabel', -⟩
    · obtain ⟨context, hcontext, hmem⟩ := hdefines.listed
      obtain ⟨context', hcontext', hmem'⟩ := hdefines'.listed
      obtain rfl := Option.some.inj (hcontext.symm.trans hcontext')
      obtain ⟨_, -, hof⟩ := objectOf_getElem? h hcontext
      obtain rfl := hof.assembled.labels.eq hmem hmem' hdefines.label hdefines'.label
      exact UInt32.toNat_inj.mp (hvalue.trans hvalue'.symm)
    · exact absurd ⟨definition, hdefines, hsame⟩ hfar'
    · exact absurd htype hlabel'
  · rcases hi' with ⟨-, definition', hdefines', hsame', -⟩ | ⟨-, -, address', hdenotes', hvalue'⟩ |
      ⟨hlabel', -⟩
    · exact absurd ⟨definition', hdefines', hsame'⟩ hfar
    · rw [LinkedObjects.denotes_unique h hdenotes hdenotes'] at hvalue
      exact UInt32.toNat_inj.mp (hvalue.trans hvalue'.symm)
    · exact absurd htype hlabel'
  · rcases hi' with ⟨htype', -⟩ | ⟨htype', -⟩ | ⟨-, hvalue'⟩
    · exact absurd htype' hlabel
    · exact absurd htype' hlabel
    · exact Except.ok.inj (hvalue.symm.trans hvalue')

/-- **A statement means one instruction.** -/
theorem LinkedStatement.unique (h : List.Forall₂ ObjectOf contexts images)
    {instruction instruction' : Instruction}
    (hs : LinkedStatement contexts placed object line statement instruction)
    (hs' : LinkedStatement contexts placed object line statement instruction') :
    instruction = instruction' := by
  obtain ⟨⟨op, hop, hopcode⟩, ⟨c, hc, hcondition⟩, hreg1, hreg2, habsent, himm⟩ := hs
  obtain ⟨⟨op', hop', hopcode'⟩, ⟨c', hc', hcondition'⟩, hreg1', hreg2', habsent', himm'⟩ := hs'
  obtain rfl := Option.some.inj (hop.symm.trans hop')
  obtain rfl := Except.ok.inj (hc.symm.trans hc')
  have h1 := UInt8.toNat_inj.mp (Except.ok.inj (hreg1.symm.trans hreg1'))
  have h2 := UInt8.toNat_inj.mp (Except.ok.inj (hreg2.symm.trans hreg2'))
  have h3 : instruction.immediate = instruction'.immediate := by
    cases hstatement : statement.imm with
    | none => rw [habsent hstatement, habsent' hstatement]
    | some token => exact (himm token hstatement).unique h (himm' token hstatement)
  obtain ⟨_, _, _, _, _⟩ := instruction
  obtain ⟨_, _, _, _, _⟩ := instruction'
  simp only at hopcode hopcode' hcondition hcondition' h1 h2 h3
  rw [hopcode, hopcode', hcondition, hcondition', h1, h2, h3]

end Unique

/-! ## The bytes of a statement -/

section Bytes

variable {context : AssemblerContext} {symbols : List ZlImageSymbol} {line : PlacedLine}
  {statement : Statement} {bytes : Bytes} {symbol : Option ℕ}

/-- What the bytes of a statement decode to, whatever immediate is put behind their first half. -/
theorem lineBytes_decode (h : lineBytes context symbols line = .ok (bytes, symbol))
    (hbody : line.body = .stmt statement) :
    ∃ (head : Bytes) (w : Word) (op : Opcode) (condition : Condition) (register1 register2 : ℕ),
      parseOptional (objectImmediate context symbols line.sectionIndex) (0, none) statement.imm
        = .ok (w, symbol) ∧
      stringToOpcode (lineToUpper statement.opcode.value) = some op ∧
      parseOptional parseCondition .unconditional statement.cond = .ok condition ∧
      parseOptional parseRegister 0 statement.reg1 = .ok register1 ∧
      parseOptional parseRegister 0 statement.reg2 = .ok register2 ∧
      head.length = 4 ∧ bytes = head ++ LittleEndian.bytes 4 w.toNat ∧
      ∀ immediate : Word, instructionDecode (head ++ LittleEndian.bytes 4 immediate.toNat)
        = some ⟨op.toWord, condition.toWord, UInt8.ofNat register1, UInt8.ofNat register2,
            immediate⟩ := by
  simp only [lineBytes, hbody, bind_eq_ok] at h
  obtain ⟨encoded, hencoded, ⟨w, symbol'⟩, himmediate, h⟩ := h
  obtain ⟨rfl, rfl⟩ := Prod.mk.inj (Except.ok.inj h)
  simp only [encodeStatement, bind_eq_ok] at hencoded
  obtain ⟨condition, hcondition, register1, hregister1, register2, hregister2, op, hop, w', hw',
    hencoded⟩ := hencoded
  rw [himmediate] at hw'
  obtain rfl := Except.ok.inj hw'
  unfold orInternalError at hencoded
  split at hencoded
  · rename_i output houtput
    obtain rfl := Except.ok.inj hencoded
    have hvalid := houtput
    unfold instructionEncode at hvalid
    split at hvalid
    · cases hvalid
    · rename_i hcodes
      rw [not_or, ge_iff_le, ge_iff_le, UInt32.not_le, UInt32.not_le] at hcodes
      rw [LittleEndian.map_shift_word _ (by omega)] at hvalid
      refine ⟨_, w, op, condition, register1, register2, himmediate, validateOperands_eq_ok hop,
        hcondition, hregister1, hregister2, rfl, (Option.some.inj hvalid).symm, fun immediate => ?_⟩
      have hdecode := instructionDecode_eq op.toWord.toUInt8 condition.toWord.toUInt8
        (UInt8.ofNat register1) (UInt8.ofNat register2)
        (LittleEndian.length_bytes 4 immediate.toNat) []
      rw [List.append_nil, toUInt32_toUInt8 hcodes.1 (by decide),
        toUInt32_toUInt8 hcodes.2 (by decide),
        LittleEndian.value_bytes_of_lt immediate.toNat_lt, UInt32.ofNat_toNat] at hdecode
      exact hdecode
  · cases hencoded

/-- The immediate of a statement that refers to no label. -/
theorem objectImmediate_literal {token : Token} {w : Word} (htype : token.type ≠ .labelUse)
    (h : objectImmediate context symbols line.sectionIndex token = .ok (w, symbol)) :
    literalImmediate token = .ok w ∧ symbol = none := by
  rw [objectImmediate, if_neg htype] at h
  obtain ⟨immediate, himmediate, hpair⟩ := map_eq_ok.mp h
  obtain ⟨rfl, rfl⟩ := Prod.mk.inj hpair
  exact ⟨himmediate, rfl⟩

end Bytes

/-- The relocations of an object do not meet the first half of a line with an instruction. -/
theorem ObjectOf.head_not_covered {context : AssemblerContext} {image : ZlImage}
    (h : ObjectOf context image) {line : PlacedLine} (hline : line ∈ context.lines)
    (hsize : line.size = instructionSize) {r : ZlImageRelocation} (hr : r ∈ image.relocations)
    (hsection : r.sectionIndex.toNat = line.sectionIndex) :
    r.offset.toNat + 4 ≤ line.sectionOffset ∨ line.sectionOffset + 4 ≤ r.offset.toNat := by
  rw [h.relocations] at hr
  obtain ⟨other, hother, hrelocation⟩ := List.mem_filterMap.mp hr
  obtain ⟨symbol, rfl, hsize'⟩ := relocationOf_eq_some hrelocation
  obtain ⟨hindex, hoffset⟩ :=
    lineRelocation_place h.assembled.placement h.counts.1 hother hsize' symbol
  rw [hindex] at hsection
  rw [hoffset]
  by_cases hsame : other = line
  · rw [hsame]
    exact .inr le_rfl
  · have hdisjoint := h.assembled.placement.disjoint hother hline hsame hsection
    rw [hsize, hsize', instructionSize] at hdisjoint
    omega

namespace LinkedObjects

variable {contexts : List AssemblerContext} {images : List ZlImage} {entrySymbol : Option CString}
  {sections final : List LinkSection} {symbols : List ZlImageSymbol} {executable : ZlImage}

/-- **The first half of an instruction** is the one that the assembler has put there. -/
theorem head_of_line (h : LinkedObjects contexts images entrySymbol sections symbols final
    executable) {object : ℕ} {context : AssemblerContext} {image : ZlImage}
    (himage : images[object]? = some image) (hof : ObjectOf context image) {line : PlacedLine}
    (hline : line ∈ context.lines) (hsize : line.size = instructionSize) {head rest : Bytes}
    (hhead : head.length = 4) (hemitted : emitted context image.symbols line = head ++ rest) :
    (placedSection contexts executable.sections object line.sectionIndex).map
      (fun s => slice s.data.toBytes line.sectionOffset 4) = some head := by
  obtain ⟨input, hinput, hinside, hbytes⟩ := hof.payload hline
  obtain ⟨s, hs, -, -, hkept⟩ := h.relocated.kept object image _ input himage hinput
  rw [hsize, instructionSize] at hinside hbytes
  rw [placedSection_eq h.objects, hs, Option.map_some, Option.some.injEq]
  have hslice : slice input.data.toBytes line.sectionOffset 4 = head := by
    have hsplit := slice_add input.data.toBytes line.sectionOffset 4 4
    rw [hbytes, hemitted] at hsplit
    refine (List.append_inj hsplit ?_).1.symm
    rw [hhead, length_slice_of_le]
    have hdata := ((h.wellFormed image (List.mem_of_getElem? himage)).sections input
      (List.mem_of_getElem? hinput)).length_toBytes
    omega
  rw [← hslice]
  refine List.ext_getElem? fun i => ?_
  rw [getElem?_slice, getElem?_slice]
  by_cases hi : i < 4
  · rw [if_pos hi, if_pos hi]
    refine hkept _ fun r hr hcovers => ?_
    have hapart := hof.head_not_covered hline hsize hr hcovers.1
    have hlow := hcovers.2.1
    have hhigh := hcovers.2.2
    omega
  · rw [if_neg hi, if_neg hi]

/-- A label denotes an address of 32 bits. -/
theorem denotes_lt (h : LinkedObjects contexts images entrySymbol sections symbols final
    executable) {object address : ℕ} {name : CString}
    (hdenotes : Denotes contexts executable.sections object name address) : address < 2 ^ 32 := by
  have hline : ∀ {object line address}, Defines contexts object name line →
      lineAddress contexts executable.sections object line = some address → address < 2 ^ 32 := by
    intro object line address hdefines haddress
    obtain ⟨context, hcontext, hmem⟩ := hdefines.listed
    obtain ⟨s, hs, hinside, hfits⟩ := h.placed_line hcontext hmem
    rw [lineAddress, hs] at haddress
    obtain rfl := Option.some.inj haddress
    rw [romSize] at hfits
    dsimp only
    omega
  cases hdenotes with
  | own line definition address_eq => exact hline definition address_eq
  | other _ object' line definition address_eq _ => exact hline definition.toDefines address_eq

/-- **The second half of an instruction** is the immediate of its statement. -/
theorem immediate_of_line (h : LinkedObjects contexts images entrySymbol sections symbols final
    executable) {object : ℕ} {context : AssemblerContext} {image : ZlImage}
    (hcontext : contexts[object]? = some context) (himage : images[object]? = some image)
    (hof : ObjectOf context image) {line : PlacedLine} (hline : line ∈ context.lines)
    {statement : Statement} (hbody : line.body = .stmt statement)
    (hsize : line.size = instructionSize) {head : Bytes} {w : Word} {symbol : Option ℕ}
    (hbytes : lineBytes context image.symbols line
      = .ok (head ++ LittleEndian.bytes 4 w.toNat, symbol)) (hhead : head.length = 4)
    (himmediate : parseOptional (objectImmediate context image.symbols line.sectionIndex) (0, none)
      statement.imm = .ok (w, symbol)) :
    ∃ immediate : Word, immediateField contexts executable.sections object line
        = some (LittleEndian.bytes 4 immediate.toNat) ∧
      (statement.imm = none → immediate = 0) ∧
      ∀ token, statement.imm = some token →
        LinkedImmediate contexts executable.sections object line token immediate := by
  have hunrelocated : symbol = none → immediateField contexts executable.sections object line
      = some (LittleEndian.bytes 4 w.toNat) := by
    rintro rfl
    refine h.field_of_local himage hof hline hsize ?_ hhead ?_
    · rw [relocationOf, hbytes]
      rfl
    · rw [emitted, hbytes]
  cases himm : statement.imm with
  | none =>
      rw [himm] at himmediate
      obtain ⟨rfl, rfl⟩ := Prod.mk.inj (Except.ok.inj himmediate)
      exact ⟨0, hunrelocated rfl, fun _ => rfl, fun _ htoken => by cases htoken⟩
  | some token =>
      rw [himm] at himmediate
      have himmediate : objectImmediate context image.symbols line.sectionIndex token
        = .ok (w, symbol) := himmediate
      by_cases htype : token.type = .labelUse
      · rcases lineBytes_reference hbytes hbody himm htype
          with ⟨offset, head', hfind, rfl, hhead', heq⟩ | ⟨hfind, index, hsymbol, rfl⟩
        · -- a label of the same section
          obtain ⟨definition, hdefinition, hsection, hlabel, rfl⟩ := findSymbolLine_eq_some hfind
          have hw := congrArg LittleEndian.value
            (List.append_inj heq (hhead.trans hhead'.symm)).2
          rw [LittleEndian.value_bytes_of_lt w.toNat_lt,
            LittleEndian.value_bytes_of_lt (UInt32.toNat_lt _)] at hw
          obtain ⟨s, hs, hinside, hfits⟩ := h.placed_line hcontext hdefinition
          rw [romSize] at hfits
          rw [UInt32.toNat_ofNat', Nat.mod_eq_of_lt (by omega)] at hw
          refine ⟨w, hunrelocated rfl, fun hnone => (by cases hnone), fun token' htoken => ?_⟩
          cases htoken
          exact .near htype definition ⟨⟨context, hcontext, hdefinition⟩, hlabel⟩ hsection hw
        · -- any other label
          have hrelocation : relocationOf context image.symbols line
              = some (lineRelocation line index) := by
            rw [relocationOf, hbytes]
            rfl
          obtain ⟨address, hdenotes, hfield⟩ :=
            h.field_of_relocation himage hof hline hsymbol hrelocation hsize
          have hfits := h.denotes_lt hdenotes
          have hvalue : (UInt32.ofNat address).toNat = address := by
            rw [UInt32.toNat_ofNat', Nat.mod_eq_of_lt hfits]
          refine ⟨UInt32.ofNat address, by rw [hvalue, hfield], fun hnone => (by cases hnone),
            fun token' htoken => ?_⟩
          cases htoken
          refine .far htype ?_ address hdenotes hvalue
          rintro ⟨definition, hdefines, hsame⟩
          obtain ⟨context', hcontext', hmem⟩ := hdefines.listed
          obtain rfl := Option.some.inj (hcontext.symm.trans hcontext')
          exact findSymbolLine_eq_none.mp hfind definition hmem hdefines.label hsame
      · obtain ⟨hliteral, rfl⟩ := objectImmediate_literal htype himmediate
        refine ⟨w, hunrelocated rfl, fun hnone => (by cases hnone), fun token' htoken => ?_⟩
        cases htoken
        exact .literal htype hliteral

/-- **The executable holds the text of the objects.** -/
theorem decodes (h : LinkedObjects contexts images entrySymbol sections symbols final executable)
    {object : ℕ} {context : AssemblerContext} (hcontext : contexts[object]? = some context)
    {line : PlacedLine} (hline : line ∈ context.lines) {statement : Statement}
    (hbody : line.body = .stmt statement) :
    ∃ s instruction, placedSection contexts executable.sections object line.sectionIndex = some s ∧
      s ∈ executable.sections ∧ line.sectionOffset + instructionSize ≤ s.dataSize ∧
      instructionDecode (slice s.data.toBytes line.sectionOffset instructionSize)
        = some instruction ∧
      LinkedStatement contexts executable.sections object line statement instruction := by
  obtain ⟨image, himage, hof⟩ := objectOf_getElem? h.objects hcontext
  obtain ⟨bytes, symbol, hbytes⟩ := hof.translated hline
  have hsize : line.size = instructionSize := by rw [PlacedLine.size, hbody, PlacedBody.size]
  obtain ⟨head, w, op, condition, register1, register2, himmediate, hop, hcondition, hregister1,
    hregister2, hhead, rfl, hdecode⟩ := lineBytes_decode hbytes hbody
  obtain ⟨s, hs, hinside, -⟩ := h.placed_line hcontext hline
  obtain ⟨immediate, hfield, habsent, htoken⟩ := h.immediate_of_line hcontext himage hof hline hbody
    hsize hbytes hhead himmediate
  have hfirst := h.head_of_line himage hof hline hsize hhead (by rw [emitted, hbytes])
  rw [hs, Option.map_some, Option.some.injEq] at hfirst
  rw [immediateField, hs, Option.map_some, Option.some.injEq] at hfield
  rw [hsize] at hinside
  refine ⟨s, ⟨op.toWord, condition.toWord, UInt8.ofNat register1, UInt8.ofNat register2, immediate⟩,
    hs, List.mem_of_getElem? hs, hinside, ?_, ?_⟩
  · rw [show instructionSize = 4 + 4 from rfl, slice_add, hfirst, hfield]
    exact hdecode immediate
  · refine ⟨⟨op, hop, rfl⟩, ⟨condition, hcondition, rfl⟩, ?_, ?_, habsent, htoken⟩
    · rw [hregister1, toNat_parseRegister hregister1]
    · rw [hregister2, toNat_parseRegister hregister2]

/-- The address of the entry point is that of a line with the label that is selected. -/
theorem entry_line (h : LinkedObjects contexts images entrySymbol sections symbols final executable)
    (hentry : ∃ object index symbol, SelectsEntry images executable.sections
      (selectedEntry images entrySymbol) executable.entryPoint object index symbol) :
    ∃ object line, Defines contexts object (selectedEntry images entrySymbol) line ∧
      lineAddress contexts executable.sections object line = some executable.entryPoint.toNat := by
  obtain ⟨object, index, symbol, hselects⟩ := hentry
  obtain ⟨image, himage, hindex⟩ := hselects.listed
  obtain ⟨context, hcontext, hof⟩ := objectOf_getElem?_image h.objects himage
  rcases symbol_cases hof.assembled.labels hof.symbols (List.mem_of_getElem? hindex)
    with ⟨line, hline, name, hlabel, rfl⟩ | ⟨name, -, rfl, -⟩
  · have hname := hselects.named
    rw [name_definedSymbol] at hname
    obtain rfl := Option.some.inj hname
    obtain ⟨address, haddress, hpoint⟩ := hselects.value
    rw [symbolAddress_definedSymbol h.objects _ hcontext hline] at haddress
    have hdefines : Defines contexts object (selectedEntry images entrySymbol) line :=
      ⟨⟨context, hcontext, hline⟩, hlabel⟩
    have hlt := h.denotes_lt (.own line hdefines haddress)
    refine ⟨object, line, hdefines, ?_⟩
    rw [haddress, hpoint, UInt32.toNat_ofNat', Nat.mod_eq_of_lt hlt]
  · exact absurd rfl hselects.defined

end LinkedObjects

/-! ## The loaded executable -/

section Loaded

variable {objects : List Bytes} {entrySymbol : Option CString} {output : Bytes}
  {images : List ZlImage} {sections final : List LinkSection} {symbols : List ZlImageSymbol}
  {executable : ZlImage}

/-- The machine after loading an executable. -/
def VirtualMachine.withExecutable (vm : VirtualMachine) (executable : ZlImage) : VirtualMachine :=
  { vm with
    rom := executable.sections.foldl loadSection vm.rom
    entryPoint := executable.entryPoint }

/-- The output of a successful linking loads into every machine. -/
theorem LinkRun.loads
    (h : LinkRun objects entrySymbol output images sections symbols final executable)
    (vm : VirtualMachine) :
    vmLoadImage allocAll vm output = (vm.withExecutable executable, .ok ()) := by
  refine vmLoadImage_eq h.output_eq (by rw [h.linked.executable_eq]) ?_
  exact List.all_eq_true.mpr fun s hs =>
    (fitsRom_iff (h.executable_wellFormed.sections s hs)).mpr
      (h.linked.sections_wellFormed h.wellFormed s hs).2

/-- The loaded sections lie in memory as the executable has them. -/
theorem LinkRun.slice_flat
    (h : LinkRun objects entrySymbol output images sections symbols final executable)
    (vm : VirtualMachine) {s : ZlImageSection} (hs : s ∈ executable.sections) {offset size : ℕ}
    (hinside : offset + size ≤ s.dataSize) :
    slice (vm.withExecutable executable).flat (s.address.toNat + offset) size
      = slice s.data.toBytes offset size := by
  have hwf := h.executable_wellFormed.sections
  have hroom := (h.linked.sections_wellFormed h.wellFormed s hs).2
  refine List.ext_getElem? fun i => ?_
  rw [getElem?_slice, getElem?_slice]
  by_cases hi : i < size
  · rw [if_pos hi, if_pos hi, VirtualMachine.flat, VirtualMachine.withExecutable,
      List.getElem?_append_left (by rw [Rom.size]; omega), foldl_loadSection _ hwf]
    obtain ⟨before, after, hsplit⟩ := List.append_of_mem hs
    have hcovers : s.Covers (s.address.toNat + offset + i) := ⟨by omega, by omega⟩
    have hlength := (hwf s hs).length_toBytes
    rw [hsplit, getElem?_overlayAll_of_last (b := vm.rom.bytes) before after s _
      (by rw [Rom.size]; omega) ⟨hcovers.1, by rw [hlength]; exact hcovers.2⟩]
    · rw [Nat.add_assoc, Nat.add_sub_cancel_left]
    · -- no later section covers the byte, since no other one does
      intro t ht hcoversByte
      have hapart := h.linked.apart h.wellFormed
      rw [hsplit, List.pairwise_append, List.pairwise_cons] at hapart
      refine hapart.2.1.1 t ht _ hcovers ⟨hcoversByte.1, ?_⟩
      rw [← (hwf t (by rw [hsplit]; simp [ht])).length_toBytes]
      exact hcoversByte.2
  · rw [if_neg hi, if_neg hi]

/-- **The loaded executable holds the text of its objects.** -/
theorem LinkedObjects.carries {contexts : List AssemblerContext}
    (h : LinkedObjects contexts images entrySymbol sections symbols final executable)
    (hrun : LinkRun objects entrySymbol output images sections symbols final executable)
    {vm : VirtualMachine} (hconcrete : vm.cpsr.ST.isConcrete = true)
    (hend : vm.memoryEnd ≤ sizeMax) :
    Carries (vmStart (vm.withExecutable executable)) (linkedText contexts executable.sections) := by
  have hplaced : ∀ {address instruction},
      linkedText contexts executable.sections address instruction →
      ∃ s ∈ executable.sections, ∃ offset, address = s.address.toNat + offset ∧
        offset + instructionSize ≤ s.dataSize ∧
        instructionDecode (slice s.data.toBytes offset instructionSize) = some instruction := by
    rintro address instruction ⟨object, context, line, statement, hcontext, hline, hbody, haddress,
      hmeaning⟩
    obtain ⟨s, decoded, hs, hmem, hinside, hdecode, hmeaning'⟩ := h.decodes hcontext hline hbody
    rw [lineAddress, hs] at haddress
    rw [hmeaning.unique h.objects hmeaning']
    exact ⟨s, hmem, line.sectionOffset, (Option.some.inj haddress).symm, hinside, hdecode⟩
  have hroom : ∀ {address instruction},
      linkedText contexts executable.sections address instruction →
      address + instructionSize ≤ romSize := by
    intro address instruction here
    obtain ⟨s, hs, offset, rfl, hinside, -⟩ := hplaced here
    have hfits := (hrun.linked.sections_wellFormed hrun.wellFormed s hs).2
    omega
  have hsize : (vmStart (vm.withExecutable executable)).memoryEnd = vm.memoryEnd := rfl
  refine ⟨hconcrete, fun here => ⟨hsize.trans_le hend, ?_⟩, fun here => ?_, fun here => ?_⟩
  · have hle := hroom here
    rw [hsize, VirtualMachine.memoryEnd]
    omega
  · have hle := hroom here
    rw [romSize] at hle
    omega
  · obtain ⟨s, hs, offset, rfl, hinside, hdecode⟩ := hplaced here
    rw [show (vmStart (vm.withExecutable executable)).flat = (vm.withExecutable executable).flat
      from rfl, hrun.slice_flat vm hs hinside, hdecode]

end Loaded

/-- **Linked programs execute their sources.**  A machine that loads the executable of assembled
sources starts at the line of the entry label and executes, pass by pass, the statement of the line
that it stands at, and has stopped, stands outside the statements or is about to write over one where
it does not.  A label of the same section stands for its offset in this section and every other one
for the address that the linker has given it. -/
theorem zlLinkObjects_executes {sources : List CString} {objects : List Bytes}
    {alloc : LinkAllocator} {entrySymbol : Option CString} {output : Bytes}
    (hobjects : List.Forall₂ AssemblesTo sources objects)
    (hlink : zlLinkObjects alloc objects entrySymbol = .ok output) {vm : VirtualMachine}
    (hconcrete : vm.cpsr.ST.isConcrete = true) (hend : vm.memoryEnd ≤ sizeMax) :
    ∃ contexts executable loaded,
      List.Forall₂ (fun source context => assembleContext source = .ok context) sources contexts ∧
      zlImageDecode allocAll output = .ok executable ∧
      vmLoadImage allocAll vm output = (loaded, .ok ()) ∧
      (∃ name object line, (∀ given, entrySymbol = some given → name = given) ∧
        Defines contexts object name line ∧
        lineAddress contexts executable.sections object line
          = some ((vmStart loaded).registers Register.pc).toNat) ∧
      ∀ n, Executed (linkedText contexts executable.sections) (vmStart loaded) n := by
  obtain ⟨images, sections, symbols, final, executable, -, hrun⟩ := zlLinkObjects_linkRun hlink
  obtain ⟨contexts, hcontexts, hall⟩ := objectsOf hobjects hrun.decoded
  have h : LinkedObjects contexts images entrySymbol sections symbols final executable :=
    ⟨hall, hrun.wellFormed, hrun.linked, hrun.count⟩
  obtain ⟨object, line, hdefines, haddress⟩ := h.entry_line hrun.selectsEntry
  refine ⟨contexts, executable, _, hcontexts, hrun.output_eq, hrun.loads vm,
    ⟨_, object, line, ?_, hdefines, haddress⟩, (h.carries hrun hconcrete hend).executed⟩
  rintro given rfl
  rfl

theorem zlLinkObjects_executes_selfJump : ∃ contexts executable loaded,
    List.Forall₂ (fun source context => assembleContext source = .ok context) [selfJump] contexts ∧
    zlImageDecode allocAll (serialize selfJumpExecutable) = .ok executable ∧
    vmLoadImage allocAll (vmInitialize 16) (serialize selfJumpExecutable) = (loaded, .ok ()) ∧
    (∃ name object line, (∀ given, none = some given → name = given) ∧
      Defines contexts object name line ∧
      lineAddress contexts executable.sections object line
        = some ((vmStart loaded).registers Register.pc).toNat) ∧
    ∀ n, Executed (linkedText contexts executable.sections) (vmStart loaded) n :=
  @zlLinkObjects_executes [selfJump] [serialize selfJumpObject] (fun _ => true) none
    (serialize selfJumpExecutable) (.cons ⟨true, none, by decide +kernel⟩ .nil)
    (by decide +kernel) (vmInitialize 16) rfl (by decide)

end Zlvm
