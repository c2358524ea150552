import Zlvm.Asm.Token

/-!
# Directives

`Directive.c`: the directives by name, and the bytes that a data directive emits.
-/

namespace Zlvm

open Loop

inductive DirectiveType
  | dirSection
  | dirGlobal
  | dirExtern
  | dirAlign
  | dirEntry
  | dirLocate
  | dirAscii
  | dirAsciiz
  | dirByte
  | dirHword
  | dirWord
  | dirDword
  | dirSpace
  | dirMacro
  | dirEndMacro
  | dirProc
  | dirEndProc
deriving DecidableEq

structure Directive where
  type : DirectiveType
  name : Token
  argv : List Token
deriving DecidableEq

/-- `is_data_directive`. -/
def DirectiveType.isData : DirectiveType → Bool
  | .dirAscii | .dirAsciiz | .dirByte | .dirHword | .dirWord | .dirDword | .dirSpace => true
  | _ => false

/-- The names of the directives. -/
def directiveNames : List (CString × DirectiveType) :=
  [("section", .dirSection), ("global", .dirGlobal), ("extern", .dirExtern),
   ("align", .dirAlign), ("entry", .dirEntry), ("locate", .dirLocate),
   ("ascii", .dirAscii), ("asciiz", .dirAsciiz), ("byte", .dirByte),
   ("hword", .dirHword), ("word", .dirWord), ("dword", .dirDword),
   ("space", .dirSpace), ("macro", .dirMacro), ("endmacro", .dirEndMacro),
   ("proc", .dirProc), ("endproc", .dirEndProc)].map fun (name, type) => (CString.lit name, type)

/-- `get_directive_type`. -/
def getDirectiveType (token : Token) : Option DirectiveType := directiveNames.lookup token.value

/-! ## Emitted data -/

/-- One value of `.ascii` or `.asciiz`. -/
def asciiValue (token : Token) : Except AsmFailure Bytes :=
  match token.type with
  | .stringLiteral => .ok token.value.bytes
  | .charLiteral => do return [← tokenGetCharValue token]
  | _ => do
      let value ← tokenGetIntValue token
      require (value ≤ 0xFF)
        (asmTokenFail .valueOutOfRange "Value does not fit in a byte" token)
      return [UInt8.ofNat value]

/-- One pass of the loop over the values of `.ascii` and `.asciiz`. -/
def appendAscii (name : Token) (result : Bytes) (token : Token) : Except AsmFailure Bytes := do
  let value ← asciiValue token
  require (value.length ≤ sizeMax - result.length)
    (asmTokenFail .outputTooLarge "Data directive is too large" name)
  return result ++ value

/-- One element of a numeric directive. -/
def numericElement (elementSize maximumValue : ℕ) (token : Token) : Except AsmFailure Bytes := do
  let value ← if token.type = .charLiteral then (tokenGetCharValue token).map (·.toNat)
    else tokenGetIntValue token
  require (value ≤ maximumValue)
    (asmTokenFail .valueOutOfRange "Value does not fit the directive width" token)
  return (List.range elementSize).map fun index => UInt8.ofNat (value >>> (8 * index))

/-- `encode_numeric_data`. -/
def encodeNumericData (directive : Directive) (elementSize maximumValue : ℕ) :
    Except AsmFailure Bytes := do
  require (directive.argv.length ≤ sizeMax / elementSize)
    (asmTokenFail .outputTooLarge "Data directive is too large" directive.name)
  let elements ← directive.argv.mapM (numericElement elementSize maximumValue)
  return elements.flatten

/-- `directive_get_raw_data`. -/
def directiveGetRawData (directive : Directive) : Except AsmFailure Bytes :=
  match directive.type with
  | .dirAscii => directive.argv.foldlM (appendAscii directive.name) []
  | .dirAsciiz => do
      let result ← directive.argv.foldlM (appendAscii directive.name) []
      require (result.length ≠ sizeMax)
        (asmTokenFail .outputTooLarge "Data directive is too large" directive.name)
      return result ++ [0]
  | .dirByte => encodeNumericData directive 1 0xFF
  | .dirHword => encodeNumericData directive 2 0xFFFF
  | .dirWord => encodeNumericData directive 4 wordMax
  | .dirDword => encodeNumericData directive 8 dwordMax
  | .dirSpace =>
      match directive.argv with
      | [size] => do
          let value ← tokenGetIntValue size
          require (value ≤ sizeMax) (asmTokenFail .valueOutOfRange
            ".space size exceeds the host size limit" size)
          return List.replicate value 0
      | _ => .error (asmTokenFail .invalidDirective
          ".space expects exactly one argument" directive.name)
  | _ => .error (asmTokenFail .internalError "Directive does not emit raw data" directive.name)

end Zlvm
