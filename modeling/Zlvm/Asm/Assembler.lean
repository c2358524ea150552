import Zlvm.Asm.Macros
import Zlvm.Asm.Parser
import Zlvm.Core.Instruction
import Zlvm.Image.Encode
import Zlvm.Vm.Machine

/-!
# The assembler

`Assembler.c` and the object half of `assemble_source`.

* `processLine`, `processLines` — one pass of, and all of, the loop of `asm_processDirectives`.
* `recordLine` — the only place where a line gets its section and its offset.
* `asmProcessLabels` — the label table of the raw mode, which also rejects duplicate labels.
* `encodeStatement`, `translateLine` — an instruction of an object, and one pass of the last loop of
  `asm_translate_object`.
* `asmTranslateObject`, `zlasmAssembleObject` — the object file of a source.

A recorded line holds a statement or raw data, never a directive.  The context of the source keeps
the label table as well; here `asmProcessLabels` returns it.
-/

namespace Zlvm

open Loop

/-! ## The context -/

structure AsmSection where
  name : CString
  type : Word
  flags : Word
  address : Word
  alignment : Word
  size : ℕ
deriving DecidableEq

/-- What a recorded line holds. -/
inductive PlacedBody
  | stmt (statement : Statement)
  | raw (data : Bytes)
deriving DecidableEq

/-- A line with its section and its offset there. -/
structure PlacedLine where
  label : Option CString
  body : PlacedBody
  sectionIndex : ℕ
  sectionOffset : ℕ
deriving DecidableEq

/-- The number of bytes a line emits. -/
def PlacedBody.size : PlacedBody → ℕ
  | .stmt _ => instructionSize
  | .raw data => data.length

/-- `line->size`. -/
def PlacedLine.size (line : PlacedLine) : ℕ := line.body.size

structure AssemblerContext where
  entry : Option CString
  globals : List CString
  externals : List CString
  lines : List PlacedLine
  sections : List AsmSection
  currentSection : ℕ
  selected : currentSection < sections.length
deriving DecidableEq

namespace AssemblerContext

/-- `context->sections[context->current_section]`. -/
def current (context : AssemblerContext) : AsmSection :=
  context.sections.get ⟨context.currentSection, context.selected⟩

/-- Change the current section. -/
def setCurrent (context : AssemblerContext) (s : AsmSection) : AssemblerContext :=
  { context with
    sections := context.sections.set context.currentSection s
    selected := by rw [List.length_set]; exact context.selected }

end AssemblerContext

/-! ## Sections -/

/-- A new section. -/
def newSection (name : CString) : AsmSection where
  name := name
  type :=
    if name = CString.lit ".bss" ∨ name = CString.lit "bss" then sectionBss
    else if name = CString.lit ".data" ∨ name = CString.lit "data" then sectionDataType
    else sectionText
  flags := 0
  address := 0
  alignment := 1
  size := 0

/-- `select_section`. -/
def selectSection (context : AssemblerContext) (name : CString) : AssemblerContext :=
  match h : context.sections.findIdx? (·.name == name) with
  | some index =>
      { context with
        currentSection := index
        selected := (List.findIdx?_eq_some_iff_findIdx_eq.mp h).1 }
  | none =>
      { context with
        sections := context.sections ++ [newSection name]
        currentSection := context.sections.length
        selected := by simp }

/-- `asm_init`. -/
def asmInit : AssemblerContext where
  entry := none
  globals := []
  externals := []
  lines := []
  sections := [newSection (CString.lit "text")]
  currentSection := 0
  selected := by simp

/-- `is_supported_section`. -/
def isSupportedSection (name : CString) : Bool :=
  name ∈ [".text", "text", ".data", "data", ".bss", "bss"].map CString.lit

/-- `asm_token_fail` with a token that may be missing. -/
def asmOptionalTokenFail (code : ZlasmDiagnosticCode) (message : String) :
    Option Token → AsmFailure
  | none => asmFail code message
  | some token => asmTokenFail code message token

/-- `validate_section_range`. -/
def validateSectionRange (s : AsmSection) (token : Option Token) : Except AsmFailure Unit :=
  require (s.address.toNat ≤ romSize ∧ s.size ≤ romSize - s.address.toNat)
    (asmOptionalTokenFail .sectionError "Section content exceeds VM ROM size" token)

/-- `record_line`. -/
def recordLine (context : AssemblerContext) (label : Option CString) (body : PlacedBody) :
    Except AsmFailure AssemblerContext := do
  let s := context.current
  require (body.size ≤ sizeMax - s.size) (asmFail .outputTooLarge "Section is too large")
  let line : PlacedLine :=
    { label, body, sectionIndex := context.currentSection, sectionOffset := s.size }
  let s := { s with size := s.size + body.size }
  validateSectionRange s none
  return { context.setCurrent s with lines := context.lines ++ [line] }

/-! ## Directives -/

/-- `is_integer_token`. -/
def isIntegerToken (token : Token) : Bool := token.type.base.isSome

/-- `is_data_value_token`. -/
def isDataValueToken (token : Token) (allowString : Bool) : Bool :=
  isIntegerToken token || token.type == .charLiteral ||
    (allowString && token.type == .stringLiteral)

/-- `require_arity`. -/
def requireArity (directive : Directive) (expectedCount : ℕ) : Except AsmFailure Unit :=
  require (directive.argv.length = expectedCount)
    (asmTokenFail .invalidDirective "Invalid directive argument count"
      (directive.argv.getD expectedCount directive.name))

/-- A check on the first argument. -/
def requireFirst (directive : Directive) (p : Token → Bool) (message : String) :
    Except AsmFailure Unit :=
  match directive.argv with
  | [] => .ok ()
  | token :: _ => require (p token) (asmTokenFail .invalidDirective message token)

/-- At least one argument. -/
def requireSome (directive : Directive) (message : String) : Except AsmFailure Unit :=
  require (directive.argv ≠ []) (asmTokenFail .invalidDirective message directive.name)

/-- Values that a data directive may emit. -/
def requireValues (directive : Directive) (allowString : Bool) (message : String) :
    Except AsmFailure Unit :=
  match directive.argv.find? (!isDataValueToken · allowString) with
  | none => .ok ()
  | some token => .error (asmTokenFail .invalidDirective message token)

/-- `validate_directive`. -/
def validateDirective (directive : Directive) : Except AsmFailure Unit :=
  match directive.type with
  | .dirSection | .dirGlobal | .dirEntry | .dirProc | .dirMacro => do
      requireArity directive 1
      requireFirst directive (·.type == .id) "Directive expects a symbol"
  | .dirExtern => do
      requireSome directive ".extern expects a symbol"
      requireFirst directive (·.type == .id) ".extern first argument must be a symbol"
  | .dirAlign | .dirLocate | .dirSpace => do
      requireArity directive 1
      requireFirst directive isIntegerToken "Directive expects an integer"
  | .dirAscii | .dirAsciiz => do
      requireSome directive "Data directive expects at least one value"
      requireValues directive true "Invalid data directive value"
  | .dirByte | .dirHword | .dirWord | .dirDword => do
      requireSome directive "Data directive expects at least one value"
      requireValues directive false "Invalid numeric directive value"
  | .dirEndMacro | .dirEndProc => requireArity directive 0

/-- `.align`. -/
def alignSection (s : AsmSection) (argument : Token) : Except AsmFailure AsmSection := do
  let alignment ← tokenGetIntValue argument
  require (alignment ≠ 0 ∧ alignment ≤ uint32Max ∧ alignment &&& (alignment - 1) = 0)
    (asmTokenFail .sectionError "Alignment must be a nonzero power of two" argument)
  let remainder := s.size &&& (alignment - 1)
  let padding := if remainder = 0 then 0 else alignment - remainder
  require (padding ≤ sizeMax - s.size)
    (asmTokenFail .outputTooLarge "Section is too large" argument)
  let s :=
    { s with
      size := s.size + padding
      alignment := if s.alignment.toNat < alignment then UInt32.ofNat alignment
        else s.alignment }
  validateSectionRange s (some argument)
  return s

/-- What `.locate` reports. -/
def locateFailure (argument : Token) : AsmFailure :=
  asmTokenFail .sectionError "Section location overlaps existing content" argument

/-- A section whose location is set: an empty one is placed, any other one is padded. -/
def moveSection (s : AsmSection) (address : ℕ) (argument : Token) :
    Except AsmFailure AsmSection :=
  if s.size = 0 then
    .ok { s with address := UInt32.ofNat address, flags := s.flags ||| 1 }
  else do
    require (s.size ≤ address - s.address.toNat) (locateFailure argument)
    return { s with size := address - s.address.toNat }

/-- `.locate`. -/
def locateSection (s : AsmSection) (argument : Token) : Except AsmFailure AsmSection := do
  let address ← tokenGetIntValue argument
  require (address ≤ uint32Max ∧ s.address.toNat ≤ address) (locateFailure argument)
  let s ← moveSection s address argument
  validateSectionRange s (some argument)
  return s

/-- The delimiter between a procedure and a label in it. -/
def asmContextDelimiter : CString := CString.lit "."

/-- `set_label_context`. -/
def setLabelContext (procedure label : CString) : CString :=
  if label = CString.empty then procedure
  else (procedure.append asmContextDelimiter).append label

/-- What the loop of `asm_processDirectives` carries.  `.proc` overwrites the label of the next
line: `opens` says that the line before was one. -/
structure DirectiveState where
  context : AssemblerContext
  procedure : Option CString
  opens : Bool
deriving DecidableEq

/-- The label of a line in its procedure. -/
def lineLabel (state : DirectiveState) (line : Line) : Option CString :=
  let label := if state.opens then some CString.empty else line.label
  match state.procedure with
  | some procedure => label.map (setLabelContext procedure)
  | none => label

/-- A directive that emits nothing; `last` says that no line follows. -/
def applyDirective (state : DirectiveState) (directive : Directive) (argument : Token)
    (last : Bool) : Except AsmFailure DirectiveState :=
  let context := state.context
  match directive.type with
  | .dirSection => do
      require (isSupportedSection argument.value)
        (asmTokenFail .sectionError "Unsupported section name" argument)
      return { state with context := selectSection context argument.value }
  | .dirGlobal => .ok
      { state with context := { context with globals := context.globals ++ [argument.value] } }
  | .dirExtern => .ok
      { state with context := { context with externals := context.externals ++ [argument.value] } }
  | .dirAlign => do
      return { state with context := context.setCurrent (← alignSection context.current argument) }
  | .dirEntry => .ok { state with context := { context with entry := some argument.value } }
  | .dirLocate => do
      return { state with context := context.setCurrent (← locateSection context.current argument) }
  | .dirProc => do
      require (last = false) (asmTokenFail .invalidDirective
        ".proc must be followed by a procedure body" directive.name)
      return { state with procedure := some argument.value, opens := true }
  | .dirEndProc => .ok { state with procedure := none }
  | .dirMacro | .dirEndMacro => .ok state
  | _ => .error (asmTokenFail .invalidDirective "Invalid directive" directive.name)

/-- One pass of the loop of `asm_processDirectives`. -/
def processLine (state : DirectiveState) (line : Line) (last : Bool) :
    Except AsmFailure DirectiveState := do
  let label := lineLabel state line
  let state := { state with opens := false }
  match line.body with
  | .stmt statement =>
      return { state with context := ← recordLine state.context label (.stmt statement) }
  | .dir directive => do
      validateDirective directive
      if directive.type.isData then
        let data ← directiveGetRawData directive
        return { state with context := ← recordLine state.context label (.raw data) }
      else applyDirective state directive (directive.argv.headD directive.name) last

/-- The loop of `asm_processDirectives`. -/
def processLines (state : DirectiveState) : List Line → Except AsmFailure DirectiveState
  | [] => .ok state
  | line :: rest => do
      let state ← processLine state line rest.isEmpty
      processLines state rest

/-- `asm_processDirectives`. -/
def asmProcessDirectives (lines : List Line) : Except AsmFailure AssemblerContext := do
  return (← processLines { context := asmInit, procedure := none, opens := false } lines).context

/-! ## Labels -/

structure LabelInfo where
  name : CString
  address : ℕ
deriving DecidableEq

/-- One pass of the loop of `asm_processLabels`: the table and the address reached. -/
def processLabel (state : List LabelInfo × ℕ) (line : PlacedLine) :
    Except AsmFailure (List LabelInfo × ℕ) :=
  match line.label with
  | none => .ok (state.1, state.2 + line.size)
  | some name => do
      require (¬state.1.any (·.name == name))
        (asmFail .sectionError "Duplicate label definition")
      return (state.1 ++ [{ name, address := state.2 }], state.2 + line.size)

/-- `asm_processLabels`. -/
def asmProcessLabels (context : AssemblerContext) : Except AsmFailure (List LabelInfo) := do
  return (← context.lines.foldlM processLabel ([], 0)).1

/-! ## Statements -/

/-- The names of the opcodes, in the order of their numbers. -/
def opcodeStrings : List String :=
  ["NOP", "POP", "POPR", "PUSHR", "PUSHI", "DUP", "MOVR", "MOVI", "ADDR", "SUBR", "MULR", "DIVR",
   "MODR", "ADDI", "SUBI", "MULI", "DIVI", "MODI", "INT", "SYSCALL", "JMP", "NOT", "ANDR", "ORR",
   "XORR", "NANDR", "NORR", "ANDI", "ORI", "XORI", "NANDI", "NORI", "INC", "DEC", "LOADB",
   "STOREB", "LOADH", "STOREH", "LOADW", "STOREW", "JMPAL", "RET", "CMPR", "CMPI", "CMPSR",
   "CMPSI", "ADDSR", "SUBSR", "MULSR", "DIVSR", "MODSR", "ADDSI", "SUBSI", "MULSI", "DIVSI",
   "MODSI"]

/-- `string_to_opcode`; no opcode is `OPCODE_TOTAL`. -/
def stringToOpcode (string : CString) : Option Opcode :=
  Opcode.all[(opcodeStrings.map CString.lit).idxOf string]?

/-- `toupper` of the C locale. -/
def toUpper (character : Byte) : Byte :=
  if 0x61 ≤ character ∧ character ≤ 0x7A then character - 0x20 else character

theorem toUpper_ne_zero {character : Byte} (h : character ≠ 0) : toUpper character ≠ 0 := by
  unfold toUpper
  split
  · rename_i hrange
    intro hzero
    rw [UInt8.sub_eq_iff_eq_add.mp hzero] at hrange
    exact absurd hrange.1 (by decide)
  · exact h

/-- `line_to_upper`. -/
def lineToUpper (line : CString) : CString :=
  ⟨line.bytes.map toUpper, fun h => by
    obtain ⟨character, hmem, hzero⟩ := List.mem_map.mp h
    exact toUpper_ne_zero (fun h => line.nulFree (h ▸ hmem)) hzero⟩

/-- The names of the conditions. -/
def conditionNames : List (CString × Condition) :=
  [("un", .unconditional), ("zs", .zeroSet), ("eq", .zeroSet), ("zc", .zeroClear),
   ("ne", .zeroClear), ("cs", .carrySet), ("hs", .carrySet), ("cc", .carryClear),
   ("lo", .carryClear), ("ns", .negativeSet), ("mi", .negativeSet), ("nc", .negativeClear),
   ("pl", .negativeClear), ("vs", .overflowSet), ("vc", .overflowClear), ("ss", .signedSet),
   ("sc", .signedClear), ("uh", .unsignedHigher), ("ul", .unsignedLowerOrSame),
   ("gt", .greater), ("ge", .greaterOrEquals), ("lt", .less),
   ("le", .lessOrEquals)].map fun (name, condition) => (CString.lit name, condition)

/-- `parse_condition`. -/
def parseCondition (token : Token) : Except AsmFailure Condition :=
  match conditionNames.lookup token.value with
  | some condition => .ok condition
  | none => .error (asmTokenFail .unknownCondition "Unknown condition" token)

/-- The names of the registers, in the order of their numbers. -/
def registerNames : List CString :=
  ["zero", "at", "v0", "v1", "v2", "v3", "a0", "a1", "a2", "a3", "t0", "t1", "t2", "t3", "t4",
   "t5", "t6", "t7", "s0", "s1", "s2", "s3", "s4", "s5", "s6", "s7", "k0", "sc", "lp", "sp", "bp",
   "pc"].map CString.lit

/-- `R_TOTAL`. -/
def registerTotal : ℕ := 32

/-- One pass of the loop over the digits of a numeric register. -/
def registerDigit (token : Token) (index : ℕ) (character : Byte) : Except AsmFailure ℕ := do
  let failure := asmTokenFail .unknownRegister "Invalid numeric register" token
  require (0x30 ≤ character ∧ character ≤ 0x39) failure
  let digit := character.toNat - 0x30
  require (index ≤ (registerTotal - 1) / 10 ∧ index * 10 + digit < registerTotal) failure
  return index * 10 + digit

/-- `parse_register`. -/
def parseRegister (token : Token) : Except AsmFailure ℕ :=
  match token.value.bytes with
  | 0x72 :: digits => do
      require (digits ≠ [])
        (asmTokenFail .unknownRegister "Invalid numeric register" token)
      digits.foldlM (registerDigit token) 0
  | _ => do
      let index := registerNames.idxOf token.value
      require (index < registerTotal) (asmTokenFail .unknownRegister "Unknown register" token)
      return index

/-- The number of registers an opcode takes, and whether it takes an immediate; no answer is
either way. -/
def expectedOperands : Opcode → ℕ × Option Bool
  | .nop | .pop | .dup | .syscall | .ret => (0, some false)
  | .popr | .pushr | .not | .inc | .dec => (1, some false)
  | .pushi | .int | .jmp | .jmpal => (0, some true)
  | .movr | .addr | .subr | .mulr | .divr | .modr | .andr | .orr | .xorr | .nandr | .norr
  | .cmpr | .cmpsr | .addsr | .subsr | .mulsr | .divsr | .modsr => (2, some false)
  | .movi | .addi | .subi | .muli | .divi | .modi | .andi | .ori | .xori | .nandi | .nori
  | .cmpi | .cmpsi | .addsi | .subsi | .mulsi | .divsi | .modsi => (1, some true)
  | .loadb | .storeb | .loadh | .storeh | .loadw | .storew => (2, none)

/-- `validate_operands`. -/
def validateOperands (opcode : Option Opcode) (statement : Statement) : Except AsmFailure Opcode :=
  match opcode with
  | none => .error (asmTokenFail .unknownOpcode "Unknown opcode" statement.opcode)
  | some opcode => do
      let registers := if statement.reg1.isSome then if statement.reg2.isSome then 2 else 1 else 0
      let (expectedRegisters, expectedImmediate) := expectedOperands opcode
      require (registers = expectedRegisters ∧
          expectedImmediate.getD statement.imm.isSome = statement.imm.isSome)
        (asmTokenFail .invalidOperands "Invalid operands" statement.opcode)
      return opcode

/-- An optional operand, with a default for its absence. -/
def parseOptional {α : Type} (parse : Token → Except AsmFailure α) (default : α) :
    Option Token → Except AsmFailure α
  | none => .ok default
  | some token => parse token

/-- The value of an immediate that is a literal. -/
def literalImmediate (token : Token) : Except AsmFailure Word :=
  if token.type = .charLiteral then (tokenGetCharValue token).map charToWord
  else do
    let value ← tokenGetIntValue token
    require (value ≤ wordMax)
      (asmTokenFail .valueOutOfRange "Immediate exceeds word size" token)
    return UInt32.ofNat value

/-- The failure of an encoder. -/
def orInternalError : Option Bytes → Except AsmFailure Bytes
  | some encoded => .ok encoded
  | none => .error (asmFail .internalError "Instruction encoding failed")

/-- The bytes of a statement of an object, given its immediate. -/
def encodeStatement (statement : Statement) (immediate : Except AsmFailure Word) :
    Except AsmFailure Bytes := do
  let condition ← parseOptional parseCondition .unconditional statement.cond
  let register1 ← parseOptional parseRegister 0 statement.reg1
  let register2 ← parseOptional parseRegister 0 statement.reg2
  let opcode ← validateOperands (stringToOpcode (lineToUpper statement.opcode.value)) statement
  let immediate ← immediate
  orInternalError (instructionEncode
    { opcode := opcode.toWord
      condition := condition.toWord
      register1 := UInt8.ofNat register1
      register2 := UInt8.ofNat register2
      immediate })

/-! ## Objects -/

/-- `find_symbol_line`. -/
def findSymbolLine (lines : List PlacedLine) (name : CString) (sectionIndex : ℕ) : Option ℕ :=
  (lines.find? fun line => line.sectionIndex == sectionIndex && line.label == some name).map
    (·.sectionOffset)

/-- `find_image_symbol`. -/
def findImageSymbol (symbols : List ZlImageSymbol) (name : CString) : Option ℕ :=
  symbols.findIdx? (·.name == some name)

/-- A section of an object before anything is copied into it. -/
def objectSection (s : AsmSection) : ZlImageSection where
  name := some s.name
  type := s.type
  flags := s.flags
  alignment := s.alignment
  address := s.address
  data := if s.type = sectionBss then .null s.size else .bytes (List.replicate s.size 0)

/-- The symbol of a label. -/
def labelSymbol (sections : List AsmSection) (line : PlacedLine) (name : CString) :
    ZlImageSymbol where
  name := some name
  sectionIndex := UInt32.ofNat line.sectionIndex
  value := UInt32.ofNat line.sectionOffset
  size := 0
  binding := symbolLocal
  type := if (sections[line.sectionIndex]?).any (·.type == sectionText) then symbolFunction
    else symbolObject

/-- One pass of the loop that makes symbols of labels. -/
def addLabel (sections : List AsmSection) (symbols : List ZlImageSymbol) (line : PlacedLine) :
    List ZlImageSymbol :=
  match line.label with
  | none => symbols
  | some name =>
      match findImageSymbol symbols name with
      | some _ => symbols
      | none => symbols ++ [labelSymbol sections line name]

/-- One pass of the loop over the global names. -/
def addGlobal (symbols : List ZlImageSymbol) (name : CString) :
    Except AsmFailure (List ZlImageSymbol) :=
  match findImageSymbol symbols name with
  | none => .error (asmFail .sectionError "Global symbol has no definition")
  | some index => .ok (symbols.modify index fun symbol => { symbol with binding := symbolGlobal })

/-- The symbol of an external name. -/
def externalSymbol (name : CString) : ZlImageSymbol where
  name := some name
  sectionIndex := undefinedSection
  value := 0
  size := 0
  binding := symbolGlobal
  type := symbolNotype

/-- One pass of the loop over the external names. -/
def addExternal (symbols : List ZlImageSymbol) (name : CString) : List ZlImageSymbol :=
  match findImageSymbol symbols name with
  | some _ => symbols
  | none => symbols ++ [externalSymbol name]

/-- The symbol table of an object. -/
def objectSymbols (context : AssemblerContext) : Except AsmFailure (List ZlImageSymbol) := do
  let symbols := context.lines.foldl (addLabel context.sections) []
  let symbols ← context.globals.foldlM addGlobal symbols
  return context.externals.foldl addExternal symbols

/-- What the last loop of `asm_translate_object` fills in. -/
structure ObjectState where
  sections : List ZlImageSection
  relocations : List ZlImageRelocation

/-- Copy bytes into a section. -/
def copyInto (offset : ℕ) (bytes : Bytes) (s : ZlImageSection) : ZlImageSection :=
  { s with data := .bytes (Buffer.overlay s.data.toBytes offset bytes) }

/-- The immediate of a statement of an object, and the symbol that a relocation has to add. -/
def objectImmediate (context : AssemblerContext) (symbols : List ZlImageSymbol)
    (sectionIndex : ℕ) (token : Token) : Except AsmFailure (Word × Option ℕ) :=
  if token.type = .labelUse then
    match findSymbolLine context.lines token.value sectionIndex with
    | some offset => .ok (UInt32.ofNat offset, none)
    | none =>
        match findImageSymbol symbols token.value with
        | some symbol => .ok (0, some symbol)
        | none => .error (asmTokenFail .unknownLabel "Unknown label" token)
  else (literalImmediate token).map fun immediate => (immediate, none)

/-- The relocation that adds a symbol's address to the immediate of a line. -/
def lineRelocation (line : PlacedLine) (symbol : ℕ) : ZlImageRelocation where
  sectionIndex := UInt32.ofNat line.sectionIndex
  offset := UInt32.ofNat (line.sectionOffset + 4)
  type := relocationAbsolute32
  symbolIndex := UInt32.ofNat symbol
  addend := 0

/-- The bytes that a line emits into an object, and the symbol of its relocation if it has one. -/
def lineBytes (context : AssemblerContext) (symbols : List ZlImageSymbol) (line : PlacedLine) :
    Except AsmFailure (Bytes × Option ℕ) :=
  match line.body with
  | .raw data => .ok (data, none)
  | .stmt statement => do
      let immediate := parseOptional (objectImmediate context symbols line.sectionIndex) (0, none)
        statement.imm
      let encoded ← encodeStatement statement (immediate.map (·.1))
      return (encoded, (← immediate).2)

/-- What the source says when a line lies in BSS. -/
def bssMessage : PlacedBody → String
  | .raw _ => "Initialized data cannot be emitted in bss"
  | .stmt _ => "Instructions cannot be emitted in bss"

/-- One pass of the last loop of `asm_translate_object`. -/
def translateLine (context : AssemblerContext) (symbols : List ZlImageSymbol)
    (state : ObjectState) (line : PlacedLine) : Except AsmFailure ObjectState := do
  require (¬(state.sections[line.sectionIndex]?).any (·.type == sectionBss))
    (asmFail .sectionError (bssMessage line.body))
  let (bytes, symbol) ← lineBytes context symbols line
  return {
    sections := state.sections.modify line.sectionIndex (copyInto line.sectionOffset bytes)
    relocations := state.relocations ++ (symbol.map (lineRelocation line)).toList }

/-- The image that `asm_translate_object` encodes. -/
def objectImage (context : AssemblerContext) : Except AsmFailure ZlImage := do
  let symbols ← objectSymbols context
  let state ← context.lines.foldlM (translateLine context symbols)
    { sections := context.sections.map objectSection, relocations := [] }
  return {
    kind := imageObject
    entrySymbol := context.entry
    sections := state.sections
    symbols
    relocations := state.relocations }

/-- `asm_translate_object`; `alloc` is whether the encoder can allocate its result. -/
def asmTranslateObject (alloc : Bool) (context : AssemblerContext) : Except AsmFailure Bytes := do
  let image ← objectImage context
  match zlImageEncode alloc image with
  | .ok output => return output
  | .error _ => throw (asmFail .sectionError "Unable to encode object image")

/-! ## A whole source -/

/-- `assemble_source` up to the translation. -/
def assembleContext (source : CString) : Except AsmFailure AssemblerContext := do
  let tokens ← lexSource source
  let expanded ← macrosExpand tokens
  let lines ← parserParse expanded
  let context ← asmProcessDirectives lines
  let _ ← asmProcessLabels context
  return context

/-- A diagnostic as the public functions return it. -/
structure ZlasmDiagnostic where
  failure : AsmFailure
  sourceFilename : CString
deriving DecidableEq

/-- A failure with the name of the source, which may be missing. -/
def AsmFailure.report (sourceFilename : Option CString) (failure : AsmFailure) : ZlasmDiagnostic :=
  { failure, sourceFilename := sourceFilename.getD (CString.lit "<memory>") }

/-- `zlasm_assemble_object`. -/
def zlasmAssembleObject (alloc : Bool) (source : CString) (sourceFilename : Option CString) :
    Except ZlasmDiagnostic Bytes :=
  match assembleContext source >>= asmTranslateObject alloc with
  | .ok output => .ok output
  | .error failure => .error (failure.report sourceFilename)

end Zlvm
