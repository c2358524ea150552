import Zlvm.Core.Types
import Zlvm.Lib.Loop

/-!
# Tokens and diagnostics

`Token.h`, `Token.c` and the two ways an assembly fails, `asm_fail` and `asm_token_fail`.  A failure
ends the assembly, so the functions that may fail return `Except AsmFailure`.  An allocation that
fails ends it with `OUT_OF_MEMORY`; the model is of assemblies whose allocations succeed.

* `asmFail`, `asmTokenFail` — a failure without and with a source location.
* `tokenGetIntValue`, `tokenGetCharValue` — the values of literals.
-/

namespace Zlvm

open Loop

/-! ## Failures -/

inductive ZlasmDiagnosticCode
  | none
  | invalidArgument
  | outOfMemory
  | unterminatedLiteral
  | unexpectedToken
  | unknownDirective
  | invalidDirective
  | malformedNumber
  | numberOverflow
  | unknownOpcode
  | invalidOperands
  | unknownCondition
  | unknownRegister
  | unknownLabel
  | valueOutOfRange
  | outputTooLarge
  | internalError
  | malformedLiteral
  | macroDuplicateDefinition
  | macroUndefined
  | macroInvalidArgument
  | macroRecursion
  | sectionError
  | linkError
deriving DecidableEq

/-- The location fields of a diagnostic that has one. -/
structure SourceLocation where
  line : ℕ
  column : ℕ
  byteOffset : ℕ
  byteLength : ℕ
deriving DecidableEq

/-- A diagnostic, apart from the file name. -/
structure AsmFailure where
  code : ZlasmDiagnosticCode
  message : String
  location : Option SourceLocation
deriving DecidableEq

/-! ## Tokens -/

inductive TokenType
  | comment
  | newline
  | id
  | register
  | labelInit
  | labelUse
  | directive
  | comma
  | stringLiteral
  | charLiteral
  | intHex
  | intDec
  | intOct
  | intBin
deriving DecidableEq

structure Token where
  type : TokenType
  value : CString
  pos : ℕ
  line : ℕ
  col : ℕ
  sourceSize : ℕ
deriving DecidableEq

/-- `asm_fail`. -/
def asmFail (code : ZlasmDiagnosticCode) (message : String) : AsmFailure :=
  { code, message, location := none }

/-- `asm_token_fail`. -/
def asmTokenFail (code : ZlasmDiagnosticCode) (message : String) (token : Token) : AsmFailure :=
  { code, message
    location := some
      { line := token.line, column := token.col
        byteOffset := token.pos, byteLength := token.sourceSize } }

/-! ## Values -/

/-- `DWORD_MAX`. -/
def dwordMax : ℕ := 0xFFFFFFFFFFFFFFFF

/-- `WORD_MAX`. -/
def wordMax : ℕ := 0xFFFFFFFF

/-- The base of an integer token. -/
def TokenType.base : TokenType → Option ℕ
  | .intHex => some 16
  | .intDec => some 10
  | .intOct => some 8
  | .intBin => some 2
  | _ => none

/-- The value of a digit in the largest base. -/
def digitValue (character : Byte) : Option ℕ :=
  if 0x30 ≤ character ∧ character ≤ 0x39 then some (character.toNat - 0x30)
  else if 0x61 ≤ character ∧ character ≤ 0x66 then some (character.toNat - 0x61 + 10)
  else if 0x41 ≤ character ∧ character ≤ 0x46 then some (character.toNat - 0x41 + 10)
  else none

/-- One pass of the loop over the digits of a token. -/
def addDigit (token : Token) (base value : ℕ) (character : Byte) : Except AsmFailure ℕ :=
  match digitValue character with
  | none => .error (asmTokenFail .malformedNumber "Malformed numeric literal" token)
  | some digit => do
      require (digit < base) (asmTokenFail .malformedNumber "Malformed numeric literal" token)
      require (value ≤ (dwordMax - digit) / base)
        (asmTokenFail .numberOverflow "Numeric literal overflows 64 bits" token)
      return value * base + digit

/-- `token_get_int_value`. -/
def tokenGetIntValue (token : Token) : Except AsmFailure ℕ :=
  match token.type.base with
  | none => .error (asmTokenFail .malformedNumber "Token is not an integer" token)
  | some base => do
      require (token.value ≠ CString.empty)
        (asmTokenFail .malformedNumber "Malformed numeric literal" token)
      token.value.bytes.foldlM (addDigit token base) 0

/-- The escapes of a character literal, from the letter to the character. -/
def charEscapes : List (Byte × Byte) :=
  [(0x6E, 0x0A), (0x72, 0x0D), (0x74, 0x09), (0x61, 0x07), (0x66, 0x0C), (0x76, 0x0B),
   (0x62, 0x08), (0x5C, 0x5C)]

/-- `token_get_char_value`. -/
def tokenGetCharValue (token : Token) : Except AsmFailure Byte :=
  let value := token.value.bytes
  if value.headD 0 ≠ 0x5C then do
    require (value.length = 1) (asmTokenFail .malformedLiteral
      "Character literal must contain exactly one character" token)
    return value.headD 0
  else do
    require (value.length = 2)
      (asmTokenFail .malformedLiteral "Malformed character escape" token)
    match charEscapes.lookup (value.getD 1 0) with
    | some character => return character
    | none => throw (asmTokenFail .malformedLiteral "Invalid character escape" token)

/-- A `char` converted to a `word`; plain `char` is signed. -/
def charToWord (character : Byte) : Word := character.toInt8.toInt32.toUInt32

end Zlvm
