import Zlvm.Core.Types

/-!
# The arithmetic unit

`ALU.h` and `ALU.c`.  Signed operations are computed on 64-bit integers, as the source does.
-/

namespace Zlvm

inductive Operation
  | noop | id | add | sub | mul | div | mod | not | and | or | xor | nand | nor | inc | dec
  | sadd | ssub | smul | sdiv | smod
deriving DecidableEq

namespace Operation

/-- The operations guarded against a zero divisor. -/
def divides : Operation → Bool
  | div | mod | sdiv | smod => true
  | _ => false

/-- `op >= OP_SADD && op <= OP_SMOD`. -/
def isSigned : Operation → Bool
  | sadd | ssub | smul | sdiv | smod => true
  | _ => false

end Operation

structure AluFlags where
  N : Bool := false
  Z : Bool := false
  V : Bool := false
  C : Bool := false
  S : Bool := false
deriving DecidableEq

/-- The default value is what `alu_reset` leaves. -/
structure Alu where
  left : Word := 0
  right : Word := 0
  result : DWord := 0
  op : Operation := .noop
  flags : AluFlags := {}
deriving DecidableEq

/-- `(sdword)(sword)value`. -/
def signExtend (value : Word) : Int64 := value.toInt32.toInt64

/-- `(word)value` of a signed result. -/
def truncate (value : Int64) : Word := value.toUInt64.toUInt32

/-- `value < SWORD_MIN || value > SWORD_MAX`. -/
def outsideSword (value : Int64) : Bool := value < -0x80000000 || value > 0x7FFFFFFF

/-- The result of an operation; `none` for those the switch of `alu_compute` does not list. -/
def aluResult (op : Operation) (left right : Word) : Option Word :=
  match op with
  | .noop => none
  | .id => some left
  | .add => some (left + right)
  | .sub => some (left - right)
  | .mul => some (left * right)
  | .div => some (left / right)
  | .mod => some (left % right)
  | .not => some (~~~left)
  | .and => some (left &&& right)
  | .or => some (left ||| right)
  | .xor => some (left ^^^ right)
  | .nand => some (~~~(left &&& right))
  | .nor => some (~~~(left ||| right))
  | .inc => some (left + 1)
  | .dec => some (left - 1)
  | .sadd => some (truncate (signExtend left + signExtend right))
  | .ssub => some (truncate (signExtend left - signExtend right))
  | .smul => some (truncate (signExtend left * signExtend right))
  | .sdiv => some (truncate (signExtend left / signExtend right))
  | .smod => some (truncate (signExtend left % signExtend right))

/-- `alu_set_signed_flags`. -/
def aluSetSignedFlags (alu : Alu) : Alu :=
  let overflow := match alu.op with
    | .sadd => outsideSword (signExtend alu.left + signExtend alu.right)
    | .ssub => outsideSword (signExtend alu.left - signExtend alu.right)
    | .smul => outsideSword (signExtend alu.left * signExtend alu.right)
    | .sdiv => alu.left == 0x80000000 && alu.right == 0xFFFFFFFF
    | _ => alu.flags.V
  { alu with flags := { alu.flags with S := true, V := overflow } }

/-- `alu_set_unsigned_flags`. -/
def aluSetUnsignedFlags (alu : Alu) : Alu :=
  let carry := match alu.op with
    | .add => decide (alu.left.toUInt64 + alu.right.toUInt64 > 0xFFFFFFFF)
    | .sub => decide (alu.left ≥ alu.right)
    | .mul => decide (alu.left.toUInt64 * alu.right.toUInt64 > 0xFFFFFFFF)
    | .inc => alu.left == 0xFFFFFFFF
    | .dec => decide (alu.left ≥ 1)
    | _ => alu.flags.C
  { alu with flags := { alu.flags with C := carry } }

/-- `alu_setFlags`. -/
def aluSetFlags (alu : Alu) : Alu :=
  let alu := { alu with
    flags := { Z := alu.result.toUInt32 == 0, N := decide (alu.result.toUInt32.toInt32 < 0) } }
  if alu.op.isSigned then aluSetSignedFlags alu else aluSetUnsignedFlags alu

/-- `alu_compute`. -/
def aluCompute (alu : Alu) : Alu :=
  let alu := { alu with flags := {} }
  if alu.op.divides ∧ alu.right = 0 then { alu with result := 0 }
  else match aluResult alu.op alu.left alu.right with
    | none => alu
    | some result => aluSetFlags { alu with result := result.toUInt64 }

/-- `alu_reset`. -/
def aluReset : Alu := {}

end Zlvm
