import Zlvm.Asm.Placement

/-!
# The raw mode

`asm_translate` and the raw half of `assemble_source`: the lines one after the other, without
sections.

* `translateRawLine`, `asmTranslate`, `zlasmAssemble` — the source.
* `rawOffset` — where a line begins in the image: the sum of the sizes of all earlier lines.
* `mem_labels` — the label table holds these offsets.
* `asmTranslate_eq_ok`, `asmTranslate_slice` — the image is the bytes of the lines in order.
-/

namespace Zlvm

open Buffer Loop

/-! ## The source -/

/-- The immediate of a statement of a raw image. -/
def rawImmediate (labels : List LabelInfo) (token : Token) : Except AsmFailure Word :=
  if token.type = .labelUse then
    match labels.find? (·.name == token.value) with
    | none => .error (asmTokenFail .unknownLabel "Unknown label" token)
    | some label => do
        require (label.address ≤ wordMax)
          (asmTokenFail .valueOutOfRange "Label address exceeds word size" token)
        return UInt32.ofNat label.address
  else literalImmediate token

/-- The bytes of a statement of a raw image. -/
def encodeRawStatement (labels : List LabelInfo) (statement : Statement) :
    Except AsmFailure Bytes := do
  let opcode ← validateOperands (stringToOpcode (lineToUpper statement.opcode.value)) statement
  let condition ← parseOptional parseCondition .unconditional statement.cond
  let register1 ← parseOptional parseRegister 0 statement.reg1
  let register2 ← parseOptional parseRegister 0 statement.reg2
  let immediate ← parseOptional (rawImmediate labels) 0 statement.imm
  orInternalError (instructionEncode
    { opcode := opcode.toWord
      condition := condition.toWord
      register1 := UInt8.ofNat register1
      register2 := UInt8.ofNat register2
      immediate })

/-- The bytes of a line of a raw image. -/
def rawLineBytes (labels : List LabelInfo) (line : PlacedLine) : Except AsmFailure Bytes :=
  match line.body with
  | .stmt statement => encodeRawStatement labels statement
  | .raw data => .ok data

/-- `growth_size`. -/
def growthSize : ℕ := 1024

/-- The loop that enlarges the buffer. -/
def growCapacity (capacity requiredSize : ℕ) : Except AsmFailure ℕ :=
  if requiredSize > capacity then
    if capacity > sizeMax - growthSize then
      .error (asmFail .outputTooLarge "Assembler output is too large")
    else growCapacity (capacity + growthSize) requiredSize
  else .ok capacity
termination_by requiredSize - capacity
decreasing_by
  rw [growthSize]
  omega

/-- The check before that loop. -/
def ensureCapacity (capacity requiredSize : ℕ) : Except AsmFailure ℕ :=
  if requiredSize > capacity then growCapacity capacity requiredSize else .ok capacity

/-- What the loop of `asm_translate` carries: the bytes so far and the size of their buffer. -/
structure RawState where
  output : Bytes
  capacity : ℕ

/-- One pass of the loop of `asm_translate`. -/
def translateRawLine (labels : List LabelInfo) (state : RawState) (line : PlacedLine) :
    Except AsmFailure RawState := do
  let data ← rawLineBytes labels line
  require (data.length ≤ sizeMax - state.output.length)
    (asmFail .outputTooLarge "Assembler output is too large")
  let capacity ← ensureCapacity state.capacity (state.output.length + data.length)
  return { output := state.output ++ data, capacity }

/-- `asm_translate`. -/
def asmTranslate (labels : List LabelInfo) (lines : List PlacedLine) : Except AsmFailure Bytes := do
  return (← lines.foldlM (translateRawLine labels) { output := [], capacity := growthSize }).output

/-- `zlasm_assemble`.  The label table that `assembleContext` makes is the one that is used. -/
def zlasmAssemble (source : CString) (sourceFilename : Option CString) :
    Except ZlasmDiagnostic Bytes :=
  let result := do
    let context ← assembleContext source
    let labels ← asmProcessLabels context
    asmTranslate labels context.lines
  match result with
  | .ok output => .ok output
  | .error failure => .error (failure.report sourceFilename)

/-! ## Offsets -/

/-- The number of bytes of the first `k` lines. -/
def rawOffset (lines : List PlacedLine) (k : ℕ) : ℕ := ((lines.take k).map PlacedLine.size).sum

@[simp] theorem rawOffset_zero (lines : List PlacedLine) : rawOffset lines 0 = 0 := rfl

theorem rawOffset_succ {lines : List PlacedLine} {k : ℕ} {line : PlacedLine}
    (h : lines[k]? = some line) : rawOffset lines (k + 1) = rawOffset lines k + line.size := by
  rw [rawOffset, rawOffset, List.take_add_one, h, List.map_append, List.sum_append]
  simp

theorem rawOffset_append {done rest : List PlacedLine} {k : ℕ} (h : k ≤ done.length) :
    rawOffset (done ++ rest) k = rawOffset done k := by
  rw [rawOffset, rawOffset, List.take_append_of_le_length h]

theorem rawOffset_mono (lines : List PlacedLine) {k k' : ℕ} (h : k ≤ k') :
    rawOffset lines k ≤ rawOffset lines k' := by
  obtain ⟨n, rfl⟩ := Nat.exists_eq_add_of_le h
  rw [rawOffset, rawOffset, List.take_add, List.map_append, List.sum_append]
  exact Nat.le_add_right _ _

/-! ## The label table -/

/-- A label of the `k`-th line. -/
def LabelAt (lines : List PlacedLine) (name : CString) (k : ℕ) : Prop :=
  ∃ line, lines[k]? = some line ∧ line.label = some name

theorem LabelAt.lt {lines : List PlacedLine} {name : CString} {k : ℕ}
    (h : LabelAt lines name k) : k < lines.length := by
  obtain ⟨line, hline, -⟩ := h
  exact (List.getElem?_eq_some_iff.mp hline).1

theorem labelAt_concat {done : List PlacedLine} {line : PlacedLine} {name : CString} {k : ℕ} :
    LabelAt (done ++ [line]) name k ↔
      LabelAt done name k ∨ k = done.length ∧ line.label = some name := by
  constructor
  · rintro ⟨found, hfound, hname⟩
    rcases Nat.lt_or_ge k done.length with hk | hk
    · rw [List.getElem?_append_left hk] at hfound
      exact .inl ⟨found, hfound, hname⟩
    · have hlt := (List.getElem?_eq_some_iff.mp hfound).1
      rw [List.length_append, List.length_singleton] at hlt
      obtain rfl : k = done.length := by omega
      rw [List.getElem?_append_right hk, Nat.sub_self] at hfound
      obtain rfl := Option.some.inj hfound
      exact .inr ⟨rfl, hname⟩
  · rintro (⟨found, hfound, hname⟩ | ⟨rfl, hname⟩)
    · exact ⟨found, (List.getElem?_append_left (List.getElem?_eq_some_iff.mp hfound).1).trans hfound,
        hname⟩
    · exact ⟨line, List.getElem?_concat_length, hname⟩

/-- No two lines have the same label, in terms of indices. -/
theorem DistinctLabels.index_eq {lines : List PlacedLine} (h : DistinctLabels lines)
    {name : CString} {k k' : ℕ} (hk : LabelAt lines name k) (hk' : LabelAt lines name k') :
    k = k' := by
  obtain ⟨a, ha, hname⟩ := hk
  obtain ⟨b, hb, hname'⟩ := hk'
  by_contra hne
  rcases pairwise_getElem? h ha hb hne with hdistinct | hdistinct
  · exact hdistinct name hname hname'
  · exact hdistinct name hname' hname

/-- **The label table** holds every label with the offset of its line. -/
theorem mem_labels {context : AssemblerContext} {labels : List LabelInfo}
    (h : asmProcessLabels context = .ok labels) (label : LabelInfo) :
    label ∈ labels ↔ ∃ k, LabelAt context.lines label.name k ∧
      label.address = rawOffset context.lines k := by
  simp only [asmProcessLabels, bind_eq_ok] at h
  obtain ⟨⟨table, address⟩, hrun, h⟩ := h
  obtain rfl := Except.ok.inj h
  have hinvariant := foldlM_induction (fun done (state : List LabelInfo × ℕ) =>
    state.2 = rawOffset done done.length ∧ ∀ label, label ∈ state.1 ↔
      ∃ k, LabelAt done label.name k ∧ label.address = rawOffset done k) hrun ?_ ?_
  · exact hinvariant.2 label
  · refine ⟨rfl, fun label => ⟨fun hmem => (by cases hmem), ?_⟩⟩
    rintro ⟨k, hk, -⟩
    exact absurd hk.lt (Nat.not_lt_zero k)
  · rintro done line rest ⟨table, address⟩ state' - ⟨haddress, htable⟩ hstep
    have hnext : address + line.size = rawOffset (done ++ [line]) (done ++ [line]).length := by
      rw [List.length_append, List.length_singleton,
        rawOffset_succ (List.getElem?_concat_length), rawOffset_append (Nat.le_refl _)]
      exact congrArg (· + line.size) haddress
    have hold : ∀ label : LabelInfo, (∃ k, LabelAt (done ++ [line]) label.name k ∧
        label.address = rawOffset (done ++ [line]) k) ↔
        label ∈ table ∨ line.label = some label.name ∧ label.address = address := by
      intro label
      rw [htable label]
      constructor
      · rintro ⟨k, hk, hk'⟩
        rcases labelAt_concat.mp hk with hk | ⟨rfl, hname⟩
        · rw [rawOffset_append hk.lt.le] at hk'
          exact .inl ⟨k, hk, hk'⟩
        · rw [rawOffset_append (Nat.le_refl _)] at hk'
          exact .inr ⟨hname, hk'.trans haddress.symm⟩
      · rintro (⟨k, hk, hk'⟩ | ⟨hname, hk'⟩)
        · exact ⟨k, labelAt_concat.mpr (.inl hk), by rw [rawOffset_append hk.lt.le, hk']⟩
        · exact ⟨done.length, labelAt_concat.mpr (.inr ⟨rfl, hname⟩),
            by rw [rawOffset_append (Nat.le_refl _), hk']; exact haddress⟩
    unfold processLabel at hstep
    split at hstep
    · rename_i hlabel
      obtain rfl := Except.ok.inj hstep
      refine ⟨hnext, fun label => ?_⟩
      rw [hold label, hlabel]
      exact ⟨.inl, fun hcase => hcase.elim id fun hnone => (by cases hnone.1)⟩
    · rename_i name hlabel
      simp only [bind_eq_ok] at hstep
      obtain ⟨-, -, hstep⟩ := hstep
      obtain rfl := Except.ok.inj hstep
      refine ⟨hnext, fun label => ?_⟩
      rw [hold label, hlabel, List.mem_append, List.mem_singleton]
      refine or_congr_right ⟨?_, ?_⟩
      · rintro rfl
        exact ⟨rfl, rfl⟩
      · rintro ⟨hname, haddress⟩
        obtain ⟨name', address'⟩ := label
        rw [Option.some.inj hname]
        exact congrArg (LabelInfo.mk name') haddress

/-! ## The image -/

/-- **The loop of `asm_translate`** appends the bytes of the lines. -/
theorem asmTranslate_eq_ok {labels : List LabelInfo} {lines : List PlacedLine} {output : Bytes}
    (h : asmTranslate labels lines = .ok output) :
    ∃ chunks, List.Forall₂ (fun line bytes => rawLineBytes labels line = .ok bytes) lines chunks ∧
      output = chunks.flatten := by
  simp only [asmTranslate, bind_eq_ok] at h
  obtain ⟨state, hrun, h⟩ := h
  obtain rfl := Except.ok.inj h
  refine foldlM_induction (fun done (state : RawState) => ∃ chunks,
    List.Forall₂ (fun line bytes => rawLineBytes labels line = .ok bytes) done chunks ∧
      state.output = chunks.flatten) hrun ⟨[], .nil, rfl⟩ ?_
  rintro done line rest state state' - ⟨chunks, hchunks, houtput⟩ hstep
  simp only [translateRawLine, bind_eq_ok] at hstep
  obtain ⟨data, hdata, -, -, capacity, -, hstep⟩ := hstep
  obtain rfl := Except.ok.inj hstep
  refine ⟨chunks ++ [data], List.rel_append hchunks (.cons hdata .nil), ?_⟩
  rw [List.flatten_append, ← houtput]
  simp

theorem validateOperands_eq_ok {opcode : Option Opcode} {statement : Statement} {op : Opcode}
    (h : validateOperands opcode statement = .ok op) : opcode = some op := by
  unfold validateOperands at h
  split at h
  · cases h
  · simp only [bind_eq_ok] at h
    obtain ⟨-, -, h⟩ := h
    rw [Except.ok.inj h]

/-- What a statement is encoded from. -/
theorem encodeRawStatement_eq_ok {labels : List LabelInfo} {statement : Statement} {bytes : Bytes}
    (h : encodeRawStatement labels statement = .ok bytes) :
    ∃ (op : Opcode) (condition : Condition) (register1 register2 : ℕ) (immediate : Word),
      stringToOpcode (lineToUpper statement.opcode.value) = some op ∧
      parseOptional parseCondition .unconditional statement.cond = .ok condition ∧
      parseOptional parseRegister 0 statement.reg1 = .ok register1 ∧
      parseOptional parseRegister 0 statement.reg2 = .ok register2 ∧
      parseOptional (rawImmediate labels) 0 statement.imm = .ok immediate ∧
      instructionEncode ⟨op.toWord, condition.toWord, UInt8.ofNat register1, UInt8.ofNat register2,
        immediate⟩ = some bytes := by
  simp only [encodeRawStatement, bind_eq_ok] at h
  obtain ⟨op, hop, condition, hcondition, register1, hregister1, register2, hregister2, immediate,
    himmediate, h⟩ := h
  unfold orInternalError at h
  split at h
  · rename_i encoded hencoded
    obtain rfl := Except.ok.inj h
    exact ⟨op, condition, register1, register2, immediate, validateOperands_eq_ok hop, hcondition,
      hregister1, hregister2, himmediate, hencoded⟩
  · cases h

theorem rawLineBytes_length {labels : List LabelInfo} {line : PlacedLine} {bytes : Bytes}
    (h : rawLineBytes labels line = .ok bytes) : bytes.length = line.size := by
  unfold rawLineBytes at h
  rw [PlacedLine.size]
  split at h
  · rename_i statement hbody
    obtain ⟨_, _, _, _, _, -, -, -, -, -, hencode⟩ := encodeRawStatement_eq_ok h
    rw [hbody, instructionEncode_length hencode]
    rfl
  · rename_i data hbody
    obtain rfl := Except.ok.inj h
    rw [hbody]
    rfl

/-- The sizes of the pieces are those of the lines. -/
theorem map_length_chunks {labels : List LabelInfo} {lines : List PlacedLine} {chunks : List Bytes}
    (h : List.Forall₂ (fun line bytes => rawLineBytes labels line = .ok bytes) lines chunks) :
    lines.map PlacedLine.size = chunks.map List.length := by
  rw [← List.forall₂_eq_eq_eq, List.forall₂_map_left_iff, List.forall₂_map_right_iff]
  exact h.imp fun _ _ hline => (rawLineBytes_length hline).symm

theorem asmTranslate_length {labels : List LabelInfo} {lines : List PlacedLine} {output : Bytes}
    (h : asmTranslate labels lines = .ok output) :
    output.length = (lines.map PlacedLine.size).sum := by
  obtain ⟨chunks, hchunks, rfl⟩ := asmTranslate_eq_ok h
  rw [List.length_flatten, map_length_chunks hchunks]

/-- **The bytes of a line** lie at its offset. -/
theorem asmTranslate_slice {labels : List LabelInfo} {lines : List PlacedLine} {output : Bytes}
    (h : asmTranslate labels lines = .ok output) {k : ℕ} {line : PlacedLine}
    (hline : lines[k]? = some line) :
    rawLineBytes labels line = .ok (slice output (rawOffset lines k) line.size) ∧
      rawOffset lines k + line.size ≤ output.length := by
  obtain ⟨chunks, hchunks, rfl⟩ := asmTranslate_eq_ok h
  obtain ⟨hk, rfl⟩ := List.getElem?_eq_some_iff.mp hline
  have hk' : k < chunks.length := hchunks.length_eq ▸ hk
  have hbytes : rawLineBytes labels lines[k] = .ok chunks[k] := hchunks.get hk hk'
  have hoffset : rawOffset lines k = (chunks.take k).flatten.length := by
    rw [rawOffset, List.map_take, map_length_chunks hchunks, ← List.map_take, List.length_flatten]
  have hsplit : chunks.flatten
      = (chunks.take k).flatten ++ (chunks[k] ++ (chunks.drop (k + 1)).flatten) := by
    rw [← List.flatten_cons, ← List.flatten_append, ← List.drop_eq_getElem_cons hk',
      List.take_append_drop]
  have hlength := rawLineBytes_length hbytes
  rw [hbytes, hsplit, slice_mid hoffset hlength.symm]
  refine ⟨rfl, ?_⟩
  rw [List.length_append, List.length_append, hoffset, hlength]
  omega

end Zlvm
