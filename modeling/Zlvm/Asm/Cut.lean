import Zlvm.Asm.Trace
import Zlvm.Asm.Splitter

/-!
# Lines that are cut in two

What a line break within a line makes of it, if the parser and the directives accept the line and
both parts.

* `Accepted` — a line of tokens that is accepted; `lineSize` — the bytes that it emits.
* `parserReadStatement_eq_ok`, `validateDirective_cut` — where a statement and a directive may be cut.
* `Accepted.cut` — only a statement may, behind its opcode, unless the line is an `.extern`.
* **`lineSizes_unmark`** — every cut adds the size of an instruction.
-/

namespace Zlvm

open Loop

/-! ## Lines -/

/-- The parser reads the line, and the directive in it, if there is one, is valid. -/
def Accepted (line : List Token) : Prop :=
  ∃ l, parserReadLine line = .ok l ∧ ∀ d, l.body = .dir d → validateDirective d = .ok ()

/-- The bytes that a line emits. -/
def lineSize (line : List Token) : ℕ :=
  match parserReadLine line with
  | .ok l => l.emittedBytes
  | .error _ => 0

/-- The line declares external symbols, of which the assembler reads the first. -/
def declaresExtern (line : List Token) : Bool := line.any (isDirective · "extern")

/-- A token that a statement holds behind its condition. -/
def isOperand (token : Token) : Bool := token.type == .register || isImmediate token

theorem readIf_eq (p : Token → Bool) (tokens : List Token) :
    ∃ first : List Token, tokens = first ++ (readIf p tokens).2 ∧ first.length ≤ 1 ∧
      ∀ token ∈ first, p token = true := by
  cases tokens with
  | nil => exact ⟨[], rfl, Nat.zero_le _, by simp⟩
  | cons token rest =>
      by_cases h : p token = true
      · refine ⟨[token], ?_, Nat.le_refl _, by simpa using h⟩
        rw [readIf, if_pos h]
        rfl
      · refine ⟨[], ?_, Nat.zero_le _, by simp⟩
        rw [readIf, if_neg h]
        rfl

/-- What is left of a line behind the operands of a statement. -/
def operandsRest (tokens : List Token) : List Token :=
  let (reg1, tokens) := readIf (·.type == .register) tokens
  let tokens := if reg1.isSome then (readIf (·.type == .register) tokens).2 else tokens
  (readIf isImmediate tokens).2

theorem parserReadStatement_ok_iff {opcode : Token} {tokens : List Token} :
    (∃ s, parserReadStatement opcode tokens = .ok s) ↔
      operandsRest (readIf (·.type == .id) tokens).2 = [] := by
  unfold parserReadStatement operandsRest
  generalize readIf (·.type == .id) tokens = read
  obtain ⟨cond, tokens⟩ := read
  dsimp only
  generalize readIf (·.type == .register) tokens = read
  obtain ⟨reg1, tokens⟩ := read
  dsimp only
  have hsecond : (if reg1.isSome then (readIf (·.type == .register) tokens).2 else tokens)
      = (if reg1.isSome then readIf (·.type == .register) tokens else (none, tokens)).2 := by
    split <;> rfl
  rw [hsecond]
  generalize (if reg1.isSome then readIf (·.type == .register) tokens else (none, tokens)) = read
  obtain ⟨reg2, tokens⟩ := read
  dsimp only
  generalize readIf isImmediate tokens = read
  obtain ⟨imm, tokens⟩ := read
  cases tokens with
  | nil => exact iff_of_true ⟨_, rfl⟩ rfl
  | cons token rest =>
      refine iff_of_false ?_ (List.cons_ne_nil _ _)
      rintro ⟨s, hs⟩
      cases hs

/-- The operands of a statement. -/
theorem isOperand_of_operandsRest {tokens : List Token} (h : operandsRest tokens = []) :
    ∀ token ∈ tokens, isOperand token = true := by
  have hregister : ∀ first : List Token, (∀ token ∈ first, (token.type == .register) = true) →
      ∀ token ∈ first, isOperand token = true := fun first hfirst token hmem => by
    rw [isOperand, hfirst token hmem, Bool.true_or]
  obtain ⟨first, hfirst, -, htype⟩ := readIf_eq (·.type == .register) tokens
  have himmediate : ∀ tokens : List Token, (readIf isImmediate tokens).2 = [] →
      ∀ token ∈ tokens, isOperand token = true := fun tokens hnil token hmem => by
    obtain ⟨last, hlast, -, htype⟩ := readIf_eq isImmediate tokens
    rw [hnil, List.append_nil] at hlast
    rw [isOperand, htype token (hlast ▸ hmem), Bool.or_true]
  unfold operandsRest at h
  generalize readIf (·.type == .register) tokens = read at h hfirst
  obtain ⟨reg1, rest⟩ := read
  dsimp only at h hfirst
  rw [hfirst]
  refine List.forall_mem_append.mpr ⟨hregister first htype, ?_⟩
  split at h
  · obtain ⟨second, hsecond, -, htype⟩ := readIf_eq (·.type == .register) rest
    rw [hsecond]
    exact List.forall_mem_append.mpr ⟨hregister second htype, himmediate _ h⟩
  · exact himmediate _ h

/-- **A statement** is an opcode, a condition and its operands, and these alone make one as well. -/
theorem parserReadStatement_eq_ok {opcode : Token} {tokens : List Token} {s : Statement}
    (h : parserReadStatement opcode tokens = .ok s) :
    ∃ cond operands, tokens = cond ++ operands ∧ cond.length ≤ 1 ∧
      (∀ token ∈ cond, token.type = .id) ∧ (∀ token ∈ operands, isOperand token = true) ∧
      ∀ opcode', ∃ s', parserReadStatement opcode' operands = .ok s' := by
  have hrest := parserReadStatement_ok_iff.mp ⟨s, h⟩
  obtain ⟨cond, htokens, hlength, hid⟩ := readIf_eq (·.type == .id) tokens
  have hoperands := isOperand_of_operandsRest hrest
  refine ⟨cond, _, htokens, hlength, fun token hmem => beq_iff_eq.mp (hid token hmem), hoperands,
    fun opcode' => parserReadStatement_ok_iff.mpr ?_⟩
  generalize (readIf (·.type == .id) tokens).2 = operands at hrest hoperands
  cases operands with
  | nil => rfl
  | cons token rest =>
      have hid : ¬(token.type == .id) = true := fun hid => by
        have hoperand := hoperands token List.mem_cons_self
        rw [beq_iff_eq] at hid
        simp [isOperand, isImmediate, hid, TokenType.base] at hoperand
      rw [readIf, if_neg hid]
      exact hrest

/-! ## Where a line may be cut -/

/-- A token with which a line may begin. -/
def startsLine (token : Token) : Bool :=
  token.type == .labelInit || token.type == .id || token.type == .directive

theorem isOperand_of_startsLine {token : Token} (h : startsLine token = true) :
    isOperand token = false := by
  simp only [startsLine, Bool.or_eq_true, beq_iff_eq] at h
  rcases h with (h | h) | h <;> simp [isOperand, isImmediate, h, TokenType.base]

theorem isDataValueToken_of_startsLine {token : Token} (h : startsLine token = true)
    (allowString : Bool) : isDataValueToken token allowString = false := by
  simp only [startsLine, Bool.or_eq_true, beq_iff_eq] at h
  rcases h with (h | h) | h <;> simp [isDataValueToken, isIntegerToken, h, TokenType.base]

/-- **A directive** other than `.extern` cannot be cut where a line may begin. -/
theorem validateDirective_cut {type : DirectiveType} {name token : Token} {args tail : List Token}
    (hwhole : validateDirective ⟨type, name, args ++ token :: tail⟩ = .ok ())
    (hpart : validateDirective ⟨type, name, args⟩ = .ok ()) (htoken : startsLine token = true) :
    type = .dirExtern := by
  have harity : ∀ n, requireArity ⟨type, name, args ++ token :: tail⟩ n = .ok () →
      requireArity ⟨type, name, args⟩ n = .ok () → False := fun n hwhole hpart => by
    simp only [requireArity, require_eq_ok, List.length_append, List.length_cons] at hwhole hpart
    omega
  have hvalues : ∀ allowString message,
      requireValues ⟨type, name, args ++ token :: tail⟩ allowString message ≠ .ok () := by
    intro allowString message hvalues
    unfold requireValues at hvalues
    split at hvalues
    · rename_i hnone
      have hvalue := List.find?_eq_none.mp hnone token (by simp)
      simp [isDataValueToken_of_startsLine htoken] at hvalue
    · cases hvalues
  unfold validateDirective at hwhole hpart
  cases type <;> simp only [bind_eq_ok] at hwhole hpart
  case dirExtern => rfl
  case dirEndMacro => exact (harity _ hwhole hpart).elim
  case dirEndProc => exact (harity _ hwhole hpart).elim
  case dirAscii => exact (hvalues _ _ (hwhole.elim fun _ h => h.2)).elim
  case dirAsciiz => exact (hvalues _ _ (hwhole.elim fun _ h => h.2)).elim
  case dirByte => exact (hvalues _ _ (hwhole.elim fun _ h => h.2)).elim
  case dirHword => exact (hvalues _ _ (hwhole.elim fun _ h => h.2)).elim
  case dirWord => exact (hvalues _ _ (hwhole.elim fun _ h => h.2)).elim
  case dirDword => exact (hvalues _ _ (hwhole.elim fun _ h => h.2)).elim
  all_goals
    obtain ⟨_, hwhole, _⟩ := hwhole
    obtain ⟨_, hpart, _⟩ := hpart
    exact (harity _ hwhole hpart).elim

theorem isDirective_extern {token : Token} (htype : token.type = .directive)
    (h : getDirectiveType token = some .dirExtern) : isDirective token "extern" = true := by
  have hnames : ∀ entry ∈ directiveNames, entry.2 = .dirExtern → entry.1 = CString.lit "extern" := by
    decide
  obtain ⟨before, after, hsplit, -⟩ := List.lookup_eq_some_iff.mp h
  have hvalue : token.value = CString.lit "extern" :=
    hnames (token.value, .dirExtern) (by rw [hsplit]; simp) rfl
  rw [isDirective, htype, hvalue]
  decide

/-- **What the parser makes of a line** is its label, if it has one, and the rest. -/
theorem parserReadLine_eq_ok {line : List Token} {l : Line} (h : parserReadLine line = .ok l) :
    ∃ labels head args label, line = labels ++ head :: args ∧ ∀ args',
      parserReadLine (labels ++ head :: args')
        = (parserReadBody (head :: args')).map fun body => { label, body } := by
  cases line with
  | nil => cases h
  | cons token rest =>
      by_cases hlabel : (token.type == .labelInit) = true
      · cases rest with
        | nil =>
            obtain ⟨failure, hfailure⟩ := parserReadLine_label (beq_iff_eq.mp hlabel)
            rw [hfailure] at h
            cases h
        | cons head args =>
            refine ⟨[token], head, args, some token.value, rfl, fun args' => ?_⟩
            rw [List.singleton_append, parserReadLine, readIf, if_pos hlabel]
            dsimp only
            rw [require_of (List.cons_ne_nil _ _), ok_bind]
            cases parserReadBody (head :: args') <;> rfl
      · refine ⟨[], token, rest, none, rfl, fun args' => ?_⟩
        rw [List.nil_append, parserReadLine, readIf, if_neg hlabel]

/-- A line of tokens is accepted with what follows its label. -/
theorem accepted_iff_of_parts {labels args : List Token} {head : Token} {label : Option CString}
    (h : parserReadLine (labels ++ head :: args)
      = (parserReadBody (head :: args)).map fun body => { label, body }) :
    Accepted (labels ++ head :: args) ↔ ∃ body, parserReadBody (head :: args) = .ok body ∧
      ∀ d, body = .dir d → validateDirective d = .ok () := by
  rw [Accepted, h]
  constructor
  · rintro ⟨l, hl, hvalid⟩
    obtain ⟨body, hbody, rfl⟩ := map_eq_ok.mp hl
    exact ⟨body, hbody, hvalid⟩
  · rintro ⟨body, hbody, hvalid⟩
    exact ⟨_, map_eq_ok.mpr ⟨body, hbody, rfl⟩, hvalid⟩

/-- The first token of an accepted line. -/
theorem Accepted.startsLine_head {token : Token} {rest : List Token}
    (h : Accepted (token :: rest)) : startsLine token = true := by
  obtain ⟨l, hl, -⟩ := h
  by_cases hlabel : (token.type == .labelInit) = true
  · rw [startsLine, hlabel, Bool.true_or, Bool.true_or]
  · rw [parserReadLine, readIf, if_neg hlabel] at hl
    dsimp only at hl
    obtain ⟨body, hbody, -⟩ := map_eq_ok.mp hl
    simp only [parserReadBody] at hbody
    split at hbody
    · rename_i hid
      simp [startsLine, hid]
    · rename_i hdirective
      simp [startsLine, hdirective]
    · cases hbody

theorem lineSize_of_stmt {labels args : List Token} {head : Token} {label : Option CString}
    {s : Statement} (h : parserReadLine (labels ++ head :: args)
      = (parserReadBody (head :: args)).map fun body => { label, body })
    (htype : head.type = .id) (hs : parserReadStatement head args = .ok s) :
    lineSize (labels ++ head :: args) = instructionSize := by
  have hbody : parserReadBody (head :: args) = .ok (.stmt s) := by
    simp only [parserReadBody, htype, hs]
    rfl
  rw [lineSize, h, hbody]
  rfl

/-- What a cut makes of a line. -/
structure CutInTwo (line : List Token) (token : Token) (tail : List Token) : Prop where
  type : token.type = .id
  accepted : Accepted (token :: tail)
  whole : lineSize (line ++ token :: tail) = instructionSize
  first : lineSize line = instructionSize
  second : lineSize (token :: tail) = instructionSize

/-- **Where a line may be cut**: only behind the opcode of a statement, if it is no `.extern`. -/
theorem Accepted.cut {line tail : List Token} {token : Token}
    (hwhole : Accepted (line ++ token :: tail)) (hline : Accepted line) (htoken : startsLine token = true)
    (huncut : declaresExtern line = false) : CutInTwo line token tail := by
  obtain ⟨labels, head, args, label, rfl, hparts⟩ := parserReadLine_eq_ok hline.choose_spec.1
  have hpart := hparts args
  have hall := hparts (args ++ token :: tail)
  rw [List.append_assoc, List.cons_append] at hwhole
  obtain ⟨body, hbody, hvalid⟩ := (accepted_iff_of_parts hpart).mp hline
  obtain ⟨body', hbody', hvalid'⟩ := (accepted_iff_of_parts hall).mp hwhole
  have hhead : head.type = .id ∨ head.type = .directive := by
    simp only [parserReadBody] at hbody
    split at hbody
    · exact .inl (by assumption)
    · exact .inr (by assumption)
    · cases hbody
  rcases hhead with hhead | hhead
  · simp only [parserReadBody, hhead] at hbody hbody'
    obtain ⟨s, hs, rfl⟩ := map_eq_ok.mp hbody
    obtain ⟨s', hs', rfl⟩ := map_eq_ok.mp hbody'
    obtain ⟨cond, operands, hsplit, hlength, hid, hoperands, hrest⟩ := parserReadStatement_eq_ok hs'
    have hnone : token ∉ operands := fun hmem => by
      have hoperand := hoperands token hmem
      rw [isOperand_of_startsLine htoken] at hoperand
      cases hoperand
    have hcut : args = [] ∧ cond = [token] ∧ operands = tail := by
      rcases List.append_eq_append_iff.mp hsplit with ⟨c, rfl, hc⟩ | ⟨c, rfl, hc⟩
      · cases c with
        | nil =>
            rw [List.nil_append] at hc
            exact absurd (hc ▸ List.mem_cons_self) hnone
        | cons first c =>
            rw [List.cons_append] at hc
            obtain ⟨rfl, rfl⟩ := List.cons.inj hc
            simp only [List.length_append, List.length_cons] at hlength
            have hargs := List.length_eq_zero_iff.mp (show args.length = 0 by omega)
            have hnil := List.length_eq_zero_iff.mp (show c.length = 0 by omega)
            subst hargs hnil
            exact ⟨rfl, rfl, rfl⟩
      · exact absurd (hc ▸ List.mem_append_right c List.mem_cons_self) hnone
    obtain ⟨rfl, rfl, rfl⟩ := hcut
    have htype := hid token List.mem_cons_self
    obtain ⟨s'', hs''⟩ := hrest token
    have hsecond : parserReadLine ([] ++ token :: operands)
        = (parserReadBody (token :: operands)).map fun body => { label := none, body } := by
      rw [List.nil_append, parserReadLine, readIf, if_neg (by simp [htype])]
    refine ⟨htype, (accepted_iff_of_parts hsecond).mpr ⟨.stmt s'', ?_, fun d hd => ?_⟩, ?_,
      lineSize_of_stmt hpart hhead hs, lineSize_of_stmt hsecond htype hs''⟩
    · simp only [parserReadBody, htype, hs'']
      rfl
    · cases hd
    · rw [List.append_assoc]
      exact lineSize_of_stmt hall hhead hs'
  · -- a directive checks its arguments, but for `.extern`
    simp only [parserReadBody, hhead] at hbody hbody'
    obtain ⟨d, hd, rfl⟩ := map_eq_ok.mp hbody
    obtain ⟨d', hd', rfl⟩ := map_eq_ok.mp hbody'
    have hvalid := hvalid d rfl
    have hvalid' := hvalid' d' rfl
    unfold parserReadDirective at hd hd'
    cases htype : getDirectiveType head with
    | none =>
        rw [htype] at hd
        cases hd
    | some type =>
        rw [htype] at hd hd'
        obtain rfl := Except.ok.inj hd
        obtain rfl := Except.ok.inj hd'
        obtain rfl := validateDirective_cut hvalid' hvalid htoken
        have hany : declaresExtern (labels ++ head :: args) = true := by
          simp [declaresExtern, isDirective_extern hhead htype]
        rw [hany] at huncut
        cases huncut

/-- A label definition alone is not accepted. -/
theorem not_accepted_label {label : Token} (h : label.type = .labelInit) : ¬Accepted [label] := by
  rintro ⟨l, hl, -⟩
  obtain ⟨failure, hfailure⟩ := parserReadLine_label h
  rw [hfailure] at hl
  cases hl

/-! ## All lines -/

/-- The bytes that some lines emit. -/
def lineSizes (lines : List (List Token)) : ℕ := (lines.map lineSize).sum

@[simp] theorem lineSizes_append (a b : List (List Token)) :
    lineSizes (a ++ b) = lineSizes a + lineSizes b := by
  rw [lineSizes, List.map_append, List.sum_append]
  rfl

@[simp] theorem lineSizes_cons (line : List Token) (lines : List (List Token)) :
    lineSizes (line :: lines) = lineSize line + lineSizes lines := rfl

section Lines

variable {lines : List (List Token)} {parsed : List Line}
  (h : List.Forall₂ (fun line l => parserReadLine line = .ok l) lines parsed)
include h

theorem lineSizes_eq : lineSizes lines = emittedBytes parsed := by
  induction h with
  | nil => rfl
  | cons head _ ih =>
      rw [lineSizes_cons, ih, lineSize, head]
      rfl

theorem accepted_of_parsed
    (hvalid : ∀ l ∈ parsed, ∀ d, l.body = .dir d → validateDirective d = .ok ()) :
    ∀ line ∈ lines, Accepted line := by
  induction h with
  | nil =>
      intro line hmem
      cases hmem
  | cons head _ ih =>
      obtain ⟨hfirst, hrest⟩ := List.forall_mem_cons.mp hvalid
      exact List.forall_mem_cons.mpr ⟨⟨_, head, hfirst⟩, ih hrest⟩

end Lines

/-- Some marked token cuts an `.extern` in two. -/
def cutsExtern (mark : Token → Bool) : SplitState → List Token → List Token → Bool
  | _, _, [] => false
  | state, line, token :: rest =>
      (cutsHere mark state token rest && declaresExtern line) ||
        cutsExtern mark (state.next token) (extendLine state line token) rest

theorem cutsExtern_between (mark : Token → Bool) (line tokens : List Token) :
    cutsExtern mark .between line tokens = cutsExtern mark .between [] tokens := by
  cases tokens with
  | nil => rfl
  | cons token rest =>
      have hhere : cutsHere mark .between token rest = false := by
        rw [cutsHere, beq_false_of_ne (by decide), Bool.and_false, Bool.false_and]
      rw [cutsExtern, cutsExtern, hhere]
      rfl

/-- The first line begins with its first token. -/
theorem splitLines_head : ∀ {tokens : List Token} {state : SplitState} (token : Token)
    (line : List Token), state ≠ .between →
      ∃ more lines, splitLines state (token :: line) tokens = (token :: more) :: lines
  | [], state, token, line, h => ⟨line, [], by rw [splitLines, if_neg h]⟩
  | next :: rest, state, token, line, h => by
      rw [splitLines]
      split
      · exact ⟨_, _, rfl⟩
      · rename_i hnext
        have hline : ∃ line', extendLine state (token :: line) next = token :: line' := by
          rw [extendLine, if_neg h]
          split
          · exact ⟨_, rfl⟩
          · exact ⟨_, rfl⟩
        obtain ⟨line', hline⟩ := hline
        rw [hline]
        exact splitLines_head token line' hnext

/-- A line goes on with a token that may begin one; behind a cut it does. -/
theorem splitLines_cut (line more : List Token) {next : Token} (hends : endsLine next = false)
    (hstarts : startsLine next = true) : ∃ tail lines,
      splitLines .inside line (next :: more) = (line ++ next :: tail) :: lines ∧
        (next.type = .id → splitLines .between [] (next :: more) = (next :: tail) :: lines) := by
  have hcomma : next.type ≠ .comma := by
    simp only [startsLine, Bool.or_eq_true, beq_iff_eq] at hstarts
    rcases hstarts with (h | h) | h <;> simp [h]
  refine ⟨(more.takeWhile (!endsLine ·)).filter (·.type != .comma),
    splitLines .between [] ((more.dropWhile (!endsLine ·)).drop 1), ?_, fun htype => ?_⟩
  · rw [splitLines_inside, List.takeWhile_cons_of_pos (by simp [hends]),
      List.dropWhile_cons_of_pos (by simp [hends])]
    simp [hcomma]
  · have hinside : SplitState.next .between next = .inside := by
      simp [SplitState.next, hends, htype]
    rw [splitLines_step, hinside, if_neg (by simp), List.nil_append, extendLine, if_pos rfl,
      splitLines_inside, List.singleton_append]

section Marks

variable {mark : Token → Bool} (hmark : ∀ t, mark t = true → endsLine t = true)
include hmark

/-- The next line begins with the next token that is not marked. -/
theorem splitLines_head_unmark {token : Token} (hends : endsLine token = false) :
    ∀ {tokens rest : List Token}, unmark mark tokens = token :: rest →
      ∃ more lines, splitLines .between [] tokens = (token :: more) :: lines
  | [], rest, h => by cases h
  | first :: tokens, rest, h => by
      cases hmarked : mark first with
      | true =>
          rw [unmark_cons_of_mark hmarked] at h
          rw [splitLines_between_cons (hmark _ hmarked)]
          exact splitLines_head_unmark hends h
      | false =>
          rw [unmark_cons_of_plain hmarked] at h
          obtain ⟨rfl, -⟩ := List.cons.inj h
          have hnext : SplitState.next .between first ≠ .between := by
            rw [SplitState.next, if_neg (by simp), if_neg (by simp [hends])]
            split <;> simp
          rw [splitLines, if_neg hnext, extendLine, if_pos rfl]
          exact splitLines_head first [] hnext

omit hmark in
theorem exists_of_endsNext {rest : List Token} (h : endsNext mark rest = false) :
    ∃ token more, unmark mark rest = token :: more ∧ endsLine token = false := by
  rw [endsNext, ← List.head?_filter] at h
  rw [unmark]
  cases hrest : rest.filter (!mark ·) with
  | nil =>
      rw [hrest] at h
      cases h
  | cons token more =>
      rw [hrest] at h
      exact ⟨token, more, rfl, by simpa using h⟩

/-- **Every cut adds the size of an instruction**, if it cuts no `.extern`. -/
theorem lineSizes_unmark : ∀ {tokens : List Token} {state : SplitState} {line : List Token},
    state.Stands line → (∀ l ∈ splitLines state line tokens, Accepted l) →
      (∀ l ∈ splitLines state line (unmark mark tokens), Accepted l) →
        cutsExtern mark state line tokens = false →
          lineSizes (splitLines state line tokens)
            = lineSizes (splitLines state line (unmark mark tokens))
              + instructionSize * cutCount mark state tokens
  | [], _, _, _, _, _, _ => rfl
  | token :: rest, state, line, hline, hcut, hwhole, huncut => by
      have hstands := hline.next token
      rw [cutsExtern, Bool.or_eq_false_iff] at huncut
      obtain ⟨hhere, huncut⟩ := huncut
      rw [cutCount]
      cases hmarked : mark token with
      | false =>
          have hcuts : cutsHere mark state token rest = false := by rw [cutsHere, hmarked]; rfl
          rw [unmark_cons_of_plain hmarked] at hwhole ⊢
          rw [splitLines_step] at hcut hwhole
          rw [splitLines_step, splitLines_step, lineSizes_append, lineSizes_append,
            lineSizes_unmark hstands (fun l hmem => hcut l (List.mem_append_right _ hmem))
              (fun l hmem => hwhole l (List.mem_append_right _ hmem)) huncut, hcuts]
          simp only [Bool.false_eq_true, if_false, Nat.zero_add, Nat.add_assoc]
      | true =>
          have hends := hmark token hmarked
          rw [unmark_cons_of_mark hmarked] at hwhole ⊢
          cases state with
          | between =>
              have hnext : SplitState.next .between token = .between := by
                simp [SplitState.next, hends]
              rw [hnext, cutsExtern_between] at huncut
              rw [splitLines_between_cons hends] at hcut ⊢
              rw [splitLines_between line] at hwhole ⊢
              rw [lineSizes_unmark (fun h => by simp at h) hcut hwhole huncut, hnext]
              simp [cutsHere]
          | label =>
              obtain ⟨label, hlabel, rfl⟩ := hline (.inl rfl)
              have halone := not_accepted_label hlabel
              by_cases hnewline : token.type = .newline
              · have hnext : SplitState.next .label token = .labelled := by
                  simp [SplitState.next, hnewline]
                have hextend : extendLine .label [label] token = [label] := by
                  simp [extendLine, hnewline]
                rw [hnext, hextend] at huncut hstands
                rw [splitLines_label_newline hnewline] at hcut ⊢
                cases rest with
                | nil => exact absurd (hcut [label] (by simp [splitLines])) halone
                | cons following rest =>
                    by_cases hlast : endsLine following = true
                    · refine absurd (hcut [label] ?_) halone
                      simp [splitLines, SplitState.next, hlast]
                    · have hplain := eq_false_of_ne_true hlast
                      have hlabelled : splitLines .label [label] (unmark mark (following :: rest))
                          = splitLines .labelled [label] (unmark mark (following :: rest)) := by
                        rw [unmark_cons_of_plain (plain_of_endsLine hmark hplain),
                          splitLines_label_cons hplain]
                      rw [hlabelled] at hwhole ⊢
                      rw [lineSizes_unmark hstands hcut hwhole huncut, hnext]
                      simp [cutsHere]
              · refine absurd (hcut [label] ?_) halone
                simp [splitLines, SplitState.next, hends, hnewline]
          | labelled =>
              obtain ⟨label, hlabel, rfl⟩ := hline (.inr rfl)
              refine absurd (hcut [label] ?_) (not_accepted_label hlabel)
              simp [splitLines, SplitState.next, hends]
          | inside =>
              have hnext : SplitState.next .inside token = .between := by
                simp [SplitState.next, hends]
              rw [hnext, cutsExtern_between] at huncut
              rw [splitLines_inside_cons hends] at hcut ⊢
              obtain ⟨hfirst, hcut⟩ := List.forall_mem_cons.mp hcut
              cases hlast : endsNext mark rest with
              | true =>
                  rw [splitLines_endsNext hlast] at hwhole ⊢
                  have hrest := (List.forall_mem_cons.mp hwhole).2
                  rw [lineSizes_cons, lineSizes_cons,
                    lineSizes_unmark (fun h => by simp at h) hcut hrest huncut, hnext]
                  simp [cutsHere, hlast, Nat.add_assoc]
              | false =>
                  -- the next token that is not marked begins a line of its own
                  obtain ⟨next, more, hunmark, hplain⟩ := exists_of_endsNext hlast
                  rw [hunmark] at hwhole ⊢
                  obtain ⟨others, lines, hhead⟩ := splitLines_head_unmark hmark hplain hunmark
                  rw [cutsHere, hmarked, hlast] at hhere
                  have hstarts := (hcut _ (hhead ▸ List.mem_cons_self)).startsLine_head
                  obtain ⟨tail, lines, hinside, hbetween⟩ := splitLines_cut line more hplain hstarts
                  rw [hinside] at hwhole ⊢
                  obtain ⟨haccepted, hlines⟩ := List.forall_mem_cons.mp hwhole
                  obtain ⟨htype, hsecond, hwholeSize, hfirstSize, hsecondSize⟩ :=
                    haccepted.cut hfirst hstarts (by simpa using hhere)
                  have hrest := (congrArg (splitLines .between []) hunmark).trans (hbetween htype)
                  have ih := lineSizes_unmark (fun h => by simp at h) hcut
                    (hrest ▸ List.forall_mem_cons.mpr ⟨hsecond, hlines⟩) huncut
                  have hcuts : cutsHere mark .inside token rest = true := by
                    rw [cutsHere, hmarked, hlast]
                    rfl
                  rw [lineSizes_cons, lineSizes_cons, ih, hrest, lineSizes_cons, hwholeSize,
                    hfirstSize, hsecondSize, hcuts, if_pos rfl, hnext, Nat.mul_add]
                  omega

end Marks

end Zlvm
