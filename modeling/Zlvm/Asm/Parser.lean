import Zlvm.Asm.Directive

/-!
# The parser

`Parser.c`, with the types of `Statement.h` and `Line.h`.  A line of the parser holds a statement or
a directive.

* `parserGetLine` — the tokens of the next line.
* `parserReadStatement`, `parserReadDirective`, `parserReadLine` — what they mean.
* `parserParse` — all lines; `parserLines_eq` — its fuel is enough.
-/

namespace Zlvm

open Loop

structure Statement where
  opcode : Token
  cond : Option Token
  reg1 : Option Token
  reg2 : Option Token
  imm : Option Token
deriving DecidableEq

/-- What a line of the parser holds. -/
inductive LineBody
  | stmt (statement : Statement)
  | dir (directive : Directive)
deriving DecidableEq

structure Line where
  label : Option CString
  body : LineBody
deriving DecidableEq

/-! ## Lines of tokens -/

/-- The end of a line: a comment ends it as well. -/
def endsLine (token : Token) : Bool := token.type == .newline || token.type == .comment

/-- A label definition may stand on a line of its own, before what it labels. -/
def skipLabelNewline (first : Token) : List Token → List Token
  | [] => []
  | token :: rest => if first.type = .labelInit ∧ token.type = .newline then rest
      else token :: rest

/-- `parser_get_line`: the tokens of a line without its commas, and the tokens after it. -/
def parserGetLine (tokens : List Token) : Option (List Token × List Token) :=
  match tokens.dropWhile endsLine with
  | [] => none
  | first :: rest =>
      let rest := skipLabelNewline first rest
      let line := rest.takeWhile (!endsLine ·)
      some (first :: line.filter (·.type != .comma), (rest.dropWhile (!endsLine ·)).drop 1)

/-! ## Statements and directives -/

/-- The next token if it satisfies `p`. -/
def readIf (p : Token → Bool) : List Token → Option Token × List Token
  | [] => (none, [])
  | token :: rest => if p token then (some token, rest) else (none, token :: rest)

/-- The tokens that an immediate may be. -/
def isImmediate (token : Token) : Bool :=
  token.type == .labelUse || token.type == .charLiteral || token.type.base.isSome

/-- `parser_read_statement`. -/
def parserReadStatement (opcode : Token) (tokens : List Token) : Except AsmFailure Statement :=
  let (cond, tokens) := readIf (·.type == .id) tokens
  let (reg1, tokens) := readIf (·.type == .register) tokens
  let (reg2, tokens) := if reg1.isSome then readIf (·.type == .register) tokens
    else (none, tokens)
  let (imm, tokens) := readIf isImmediate tokens
  match tokens with
  | [] => .ok { opcode, cond, reg1, reg2, imm }
  | token :: _ => .error (asmTokenFail .unexpectedToken "Unexpected trailing token" token)

/-- `parser_read_directive`. -/
def parserReadDirective (name : Token) (argv : List Token) : Except AsmFailure Directive :=
  match getDirectiveType name with
  | some type => .ok { type, name, argv }
  | none => .error (asmTokenFail .unknownDirective "Unknown directive" name)

/-- What follows the label of a line. -/
def parserReadBody : List Token → Except AsmFailure LineBody
  | [] => .error (asmFail .unexpectedToken "Expected a statement or directive")
  | current :: tokens =>
      match current.type with
      | .id => (parserReadStatement current tokens).map .stmt
      | .directive => (parserReadDirective current tokens).map .dir
      | _ => .error (asmTokenFail .unexpectedToken "Unexpected token" current)

/-- `parser_read_line`. -/
def parserReadLine (tokens : List Token) : Except AsmFailure Line :=
  match readIf (·.type == .labelInit) tokens with
  | (none, tokens) => (parserReadBody tokens).map fun body => { label := none, body }
  | (some label, tokens) => do
      require (tokens ≠ []) (asmTokenFail .unexpectedToken
        "Label is not followed by a statement or directive" label)
      let body ← parserReadBody tokens
      return { label := some label.value, body }

/-- The lines of a list of at most `fuel` tokens. -/
def parserLines : ℕ → List Token → Except AsmFailure (List Line)
  | 0, _ => .ok []
  | fuel + 1, tokens =>
      match parserGetLine tokens with
      | none => .ok []
      | some (line, rest) => do return (← parserReadLine line) :: (← parserLines fuel rest)

/-- `parser_parse`. -/
def parserParse (tokens : List Token) : Except AsmFailure (List Line) :=
  parserLines tokens.length tokens

/-! ## Progress -/

theorem skipLabelNewline_length_le (first : Token) : ∀ rest : List Token,
    (skipLabelNewline first rest).length ≤ rest.length
  | [] => Nat.le_refl 0
  | token :: rest => by
      rw [skipLabelNewline]
      split
      · exact Nat.le_succ _
      · exact Nat.le_refl _

/-- **A line takes at least one token.** -/
theorem parserGetLine_lt {tokens line rest : List Token}
    (h : parserGetLine tokens = some (line, rest)) : rest.length < tokens.length := by
  unfold parserGetLine at h
  have hdrop := (List.dropWhile_sublist endsLine (l := tokens)).length_le
  split at h
  · cases h
  · rename_i first following hfirst
    cases h
    rw [hfirst, List.length_cons] at hdrop
    have hskip := skipLabelNewline_length_le first following
    have hline := (List.dropWhile_sublist (!endsLine ·)
      (l := skipLabelNewline first following)).length_le
    rw [List.length_drop]
    omega

/-- More fuel than there are tokens changes nothing. -/
theorem parserLines_eq : ∀ (fuel fuel' : ℕ) (tokens : List Token),
    tokens.length ≤ fuel → tokens.length ≤ fuel' →
      parserLines fuel tokens = parserLines fuel' tokens
  | 0, 0, _, _, _ => rfl
  | 0, _ + 1, tokens, h, _ => by
      obtain rfl := List.length_eq_zero_iff.mp (Nat.le_zero.mp h)
      rfl
  | _ + 1, 0, tokens, _, h => by
      obtain rfl := List.length_eq_zero_iff.mp (Nat.le_zero.mp h)
      rfl
  | fuel + 1, fuel' + 1, tokens, h, h' => by
      rw [parserLines, parserLines]
      cases hline : parserGetLine tokens with
      | none => rfl
      | some next =>
          obtain ⟨line, rest⟩ := next
          have hlt := parserGetLine_lt hline
          simp only [parserLines_eq fuel fuel' rest (by omega) (by omega)]

end Zlvm
