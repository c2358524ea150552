import Zlvm.Asm.Raw
import Zlvm.Lib.Heap

/-!
# The memory of the assembler

`Memory.c`, `Error.c` and `assemble_source`: the assembler records what it allocates, so that a
failure, which jumps out of the stages from anywhere, can free all of it.

* `AsmMemory` — the heap and the records of the current error context.
* `asmMalloc`, `asmCalloc`, `asmRealloc`, `asmStrdup`, `asmMemoryDetach`, `asmFree`,
  `asmMemoryReleaseAll` — the functions of `Memory.h`.
* `AsmWork` — what the stages do with memory; `AsmWork.Computes` — that they only use what is theirs,
  and what comes of it.
* `assembleSource` — `assemble_source`.
* `Managed` — the invariant: which blocks the records account for.
* **`assembleSource_balanced`** — it never touches a block that is not its own, leaves nothing behind
  but the binary, and has the result of the assembly unless an allocation is refused.
-/

namespace Zlvm

open Loop CHeap

/-! ## Contexts -/

/-- `AsmAllocation`: the block of the record and the block that it records. -/
structure AsmAllocation where
  node : Pointer
  pointer : Pointer

/-- The heap, and the allocations of `asm_error_context`, if there is one. -/
structure AsmMemory extends Heap Byte where
  context : Option (List AsmAllocation)

/-- How the assembler may stop. -/
inductive AsmStop
  /-- A block that is not there was used. -/
  | undefined
  /-- `exit`, outside of a context. -/
  | exited
  /-- `longjmp` -/
  | jumped (failure : AsmFailure) (memory : AsmMemory)

/-- `asm_fail` -/
def AsmMemory.fail (failure : AsmFailure) (memory : AsmMemory) : AsmStop :=
  match memory.context with
  | none => .exited
  | some _ => .jumped failure memory

/-- What all allocations fail with. -/
def outOfMemory : AsmFailure := asmFail .outOfMemory "Out of memory"

/-- `free` -/
def AsmMemory.free (p : Pointer) (memory : AsmMemory) : Except AsmStop AsmMemory :=
  match memory.toHeap.free p with
  | none => .error .undefined
  | some heap => .ok { memory with toHeap := heap }

/-! ## `Memory.c` -/

section Functions

variable (libc : Libc Byte)

/-- `sizeof (AsmAllocation)` -/
def asmAllocationSize : ℕ := 16

/-- `track` -/
def track (pointer : Pointer) (memory : AsmMemory) : Except AsmStop AsmMemory :=
  match memory.context with
  | none => .ok memory
  | some allocations =>
      let (node, heap) := memory.toHeap.malloc libc asmAllocationSize
      let memory := { memory with toHeap := heap }
      if node = null then do
        let memory ← memory.free pointer
        .error (memory.fail outOfMemory)
      else .ok { memory with context := some ({ node, pointer } :: allocations) }

/-- `find_allocation`: what comes before the record of a block, the record, and what follows. -/
def findAllocation (pointer : Pointer) :
    List AsmAllocation → Option (List AsmAllocation × AsmAllocation × List AsmAllocation)
  | [] => none
  | allocation :: rest =>
      if allocation.pointer = pointer then some ([], allocation, rest)
      else (findAllocation pointer rest).map fun (before, found, after) =>
        (allocation :: before, found, after)

/-- No allocation is of zero bytes. -/
def atLeastOne (size : ℕ) : ℕ := if size = 0 then 1 else size

/-- `asm_malloc` -/
def asmMalloc (size : ℕ) (memory : AsmMemory) : Except AsmStop (Pointer × AsmMemory) := do
  let (result, heap) := memory.toHeap.malloc libc (atLeastOne size)
  let memory := { memory with toHeap := heap }
  require (result ≠ null) (memory.fail outOfMemory)
  let memory ← track libc result memory
  return (result, memory)

/-- `asm_calloc` -/
def asmCalloc (count size : ℕ) (memory : AsmMemory) : Except AsmStop (Pointer × AsmMemory) := do
  let (result, heap) := memory.toHeap.calloc libc 0 (atLeastOne count) (atLeastOne size)
  let memory := { memory with toHeap := heap }
  require (result ≠ null) (memory.fail outOfMemory)
  let memory ← track libc result memory
  return (result, memory)

/-- `asm_realloc` -/
def asmRealloc (pointer : Pointer) (size : ℕ) (memory : AsmMemory) :
    Except AsmStop (Pointer × AsmMemory) :=
  let allocation := memory.context.bind (findAllocation pointer)
  match memory.toHeap.realloc libc pointer (atLeastOne size) with
  | none => .error .undefined
  | some (result, heap) => do
      let memory := { memory with toHeap := heap }
      require (result ≠ null) (memory.fail outOfMemory)
      match allocation with
      | some (before, found, after) =>
          return (result,
            { memory with context := some (before ++ { found with pointer := result } :: after) })
      | none => do
          let memory ← track libc result memory
          return (result, memory)

/-- Write the whole of a block. -/
def AsmMemory.write (p : Pointer) (contents : Bytes) (memory : AsmMemory) :
    Except AsmStop AsmMemory :=
  if h : p ≠ null ∧ (memory.blocks p).map List.length = some contents.length then
    .ok { memory with toHeap := memory.toHeap.set p h.1 (some contents) }
  else .error .undefined

/-- `asm_strdup` -/
def asmStrdup (string : Option CString) (memory : AsmMemory) :
    Except AsmStop (Pointer × AsmMemory) :=
  match string with
  | none => .error (memory.fail (asmFail .internalError "Cannot duplicate a null string"))
  | some string => do
      let (result, memory) ← asmMalloc libc (string.bytes.length + 1) memory
      let memory ← memory.write result (string.bytes ++ [0])
      return (result, memory)

/-- `asm_memory_detach` -/
def asmMemoryDetach (pointer : Pointer) (memory : AsmMemory) : Except AsmStop AsmMemory :=
  match memory.context.bind (findAllocation pointer) with
  | none => .ok memory
  | some (before, removed, after) =>
      { memory with context := some (before ++ after) }.free removed.node

/-- `asm_free` -/
def asmFree (pointer : Pointer) (memory : AsmMemory) : Except AsmStop AsmMemory := do
  let memory ← asmMemoryDetach pointer memory
  memory.free pointer

/-- The loop of `asm_memory_release_all`. -/
def releaseAll : List AsmAllocation → AsmMemory → Except AsmStop AsmMemory
  | [], memory => .ok memory
  | allocation :: rest, memory => do
      let memory := { memory with context := some rest }
      let memory ← memory.free allocation.pointer
      let memory ← memory.free allocation.node
      releaseAll rest memory

/-- `asm_memory_release_all` -/
def asmMemoryReleaseAll (memory : AsmMemory) : Except AsmStop AsmMemory :=
  match memory.context with
  | none => .ok memory
  | some allocations => releaseAll allocations memory

/-! ## The stages -/

/-- What the stages do with memory: what they allocate may depend on all that they read. -/
inductive AsmWork
  /-- The binary is the beginning of a block. -/
  | finish (binary : Pointer) (size : ℕ)
  /-- `zl_image_encode` allocates the binary, outside of the context. -/
  | encode (binary : Bytes)
  | fail (failure : AsmFailure)
  | malloc (size : ℕ) (next : Pointer → AsmWork)
  | calloc (count size : ℕ) (next : Pointer → AsmWork)
  | realloc (pointer : Pointer) (size : ℕ) (next : Pointer → AsmWork)
  | strdup (string : Option CString) (next : Pointer → AsmWork)
  | free (pointer : Pointer) (next : AsmWork)
  | write (pointer : Pointer) (contents : Bytes) (next : AsmWork)
  | read (pointer : Pointer) (next : Bytes → AsmWork)

/-- `"Unable to encode object image"`, when there is no memory for it. -/
def encodingFailure : AsmFailure := asmFail .sectionError "Unable to encode object image"

/-- Do the work; the result is the binary and its size. -/
def AsmWork.run : AsmWork → AsmMemory → Except AsmStop ((Pointer × ℕ) × AsmMemory)
  | .finish binary size, memory => .ok ((binary, size), memory)
  | .encode binary, memory => do
      let (result, heap) := memory.toHeap.malloc libc binary.length
      let memory := { memory with toHeap := heap }
      require (result ≠ null) (memory.fail encodingFailure)
      let memory ← memory.write result binary
      return ((result, binary.length), memory)
  | .fail failure, memory => .error (memory.fail failure)
  | .malloc size next, memory => do
      let (result, memory) ← asmMalloc libc size memory
      (next result).run memory
  | .calloc count size next, memory => do
      let (result, memory) ← asmCalloc libc count size memory
      (next result).run memory
  | .realloc pointer size next, memory => do
      let (result, memory) ← asmRealloc libc pointer size memory
      (next result).run memory
  | .strdup string next, memory => do
      let (result, memory) ← asmStrdup libc string memory
      (next result).run memory
  | .free pointer next, memory => do
      let memory ← asmFree pointer memory
      next.run memory
  | .write pointer contents next, memory => do
      let memory ← memory.write pointer contents
      next.run memory
  | .read pointer next, memory =>
      match memory.blocks pointer with
      | none => .error .undefined
      | some contents => (next contents).run memory

/-! ## `assemble_source` -/

/-- `ZlasmResult`: without a diagnostic, there is a binary. -/
structure ZlasmResult where
  binary : Pointer
  binarySize : ℕ
  diagnostic : Option ZlasmDiagnostic

/-- `sizeof (AsmErrorContext)` -/
def asmErrorContextSize : ℕ := 224

/-- `sizeof (ZlasmDiagnostic)` -/
def zlasmDiagnosticSize : ℕ := 64

/-- The result of an assembly that has failed. -/
def failedResult (failure : AsmFailure) (sourceFilename : Option CString) : ZlasmResult :=
  { binary := null, binarySize := 0, diagnostic := some (failure.report sourceFilename) }

/-- `assemble_source`; `work` is what lexing, expansion, parsing, the directives and the translation
of a source do with memory. -/
def assembleSource (work : CString → AsmWork) (source sourceFilename : Option CString)
    (memory : AsmMemory) : Except AsmStop (ZlasmResult × AsmMemory) := do
  let (error, heap) := memory.toHeap.calloc libc 0 1 asmErrorContextSize
  let (diagnostic, heap) := heap.calloc libc 0 1 zlasmDiagnosticSize
  let memory := { memory with toHeap := heap }
  if error = null ∨ diagnostic = null then
    let memory ← memory.free error
    let memory ← memory.free diagnostic
    return (failedResult outOfMemory sourceFilename, memory)
  match source with
  | none =>
      let memory ← memory.free diagnostic
      let memory ← memory.free error
      return (failedResult (asmFail .invalidArgument "Source is null") sourceFilename, memory)
  | some source =>
      match (work source).run libc { memory with context := some [] } with
      | .error (.jumped failure memory) =>
          let memory ← asmMemoryReleaseAll memory
          let memory := { memory with context := none }
          let memory ← memory.free diagnostic
          let memory ← memory.free error
          return (failedResult failure sourceFilename, memory)
      | .error stop => .error stop
      | .ok ((binary, binarySize), memory) =>
          let memory ← asmMemoryDetach binary memory
          let memory ← asmMemoryReleaseAll memory
          let memory := { memory with context := none }
          let memory ← memory.free diagnostic
          let memory ← memory.free error
          return ({ binary, binarySize, diagnostic := none }, memory)

end Functions

/-! ## What the records account for -/

/-- The blocks of the records: their own and the recorded ones. -/
def records : List AsmAllocation → List Pointer
  | [] => []
  | allocation :: rest => allocation.node :: allocation.pointer :: records rest

/-- **The invariant.**  The heap is a base with the blocks of the records, and what the stages own is
recorded. -/
structure Managed (base owned : Blocks Byte) (allocations : List AsmAllocation)
    (memory : AsmMemory) : Prop where
  context : memory.context = some allocations
  distinct : (records allocations).Nodup
  fresh : ∀ p ∈ records allocations, p ≠ null ∧ base p = none
  live : ∀ p ∈ records allocations, (memory.blocks p).isSome = true
  frame : ∀ p, p ∉ records allocations → memory.blocks p = base p
  owned : ∀ p, owned p
    = if p ∈ allocations.map AsmAllocation.pointer then memory.blocks p else none

section Records

variable {p : Pointer} {allocation : AsmAllocation} {before after allocations : List AsmAllocation}

theorem mem_records_of_pointer (h : p ∈ allocations.map AsmAllocation.pointer) :
    p ∈ records allocations := by
  induction allocations with
  | nil => exact absurd h List.not_mem_nil
  | cons allocation rest ih =>
      rcases List.mem_cons.mp h with rfl | h
      · exact List.mem_cons_of_mem _ List.mem_cons_self
      · exact List.mem_cons_of_mem _ (List.mem_cons_of_mem _ (ih h))

/-- The record in the middle comes first. -/
theorem records_perm (before after : List AsmAllocation) (allocation : AsmAllocation) :
    (records (before ++ allocation :: after)).Perm
      (allocation.node :: allocation.pointer :: records (before ++ after)) := by
  induction before with
  | nil => exact .refl _
  | cons first before ih =>
      refine ((ih.cons first.pointer).cons first.node).trans ?_
      exact (@List.perm_append_comm _ [first.node, first.pointer]
        [allocation.node, allocation.pointer]).append_right _

/-- The record that is found is the one of the block. -/
theorem findAllocation_eq_some (h : findAllocation p allocations = some (before, allocation, after)) :
    allocations = before ++ allocation :: after ∧ allocation.pointer = p := by
  induction allocations generalizing before with
  | nil => cases h
  | cons first rest ih =>
      rw [findAllocation] at h
      split at h
      · rename_i hfirst
        cases h
        exact ⟨rfl, hfirst⟩
      · obtain ⟨⟨before', allocation', after'⟩, hfound, h⟩ := Option.map_eq_some_iff.mp h
        cases h
        obtain ⟨rfl, hpointer⟩ := ih hfound
        exact ⟨rfl, hpointer⟩

/-- No record is found if there is none. -/
theorem findAllocation_eq_none (h : findAllocation p allocations = none) :
    p ∉ allocations.map AsmAllocation.pointer := by
  induction allocations with
  | nil => exact List.not_mem_nil
  | cons first rest ih =>
      rw [findAllocation] at h
      split at h
      · cases h
      · rename_i hfirst
        rw [List.map_cons, List.mem_cons, not_or]
        exact ⟨Ne.symm hfirst, ih (Option.map_eq_none_iff.mp h)⟩

end Records

section Managed

variable {base owned : Blocks Byte} {memory memory' : AsmMemory} {p q node : Pointer}
  {allocation : AsmAllocation} {before after allocations : List AsmAllocation}
  {contents contents' : Bytes}

theorem Managed.not_mem (h : Managed base owned allocations memory) (hp : memory.blocks p = none) :
    p ∉ records allocations := by
  intro hmem
  have hlive := h.live p hmem
  rw [hp] at hlive
  cases hlive

/-- A block that no record accounts for. -/
theorem Managed.outside (h : Managed base owned allocations memory) (hp : p ∉ records allocations)
    {block : Option Bytes} (hblocks : memory'.blocks = Function.update memory.blocks p block)
    (hcontext : memory'.context = memory.context) :
    Managed (Function.update base p block) owned allocations memory' where
  context := hcontext.trans h.context
  distinct := h.distinct
  fresh r hr := by
    obtain ⟨hnull, hbase⟩ := h.fresh r hr
    exact ⟨hnull, by rw [Function.update_of_ne (ne_of_mem_of_not_mem hr hp), hbase]⟩
  live r hr := by
    rw [hblocks, Function.update_of_ne (ne_of_mem_of_not_mem hr hp)]
    exact h.live r hr
  frame r hr := by
    rw [hblocks, Function.update_apply, Function.update_apply, h.frame r hr]
  owned r := by
    rw [h.owned r, hblocks]
    split
    · rename_i hr
      rw [Function.update_of_ne (ne_of_mem_of_not_mem (mem_records_of_pointer hr) hp)]
    · rfl

/-- A block is recorded. -/
theorem Managed.record (h : Managed base owned allocations memory) (hp : p ≠ null)
    (hbase : base p = some contents) (hnode : node ≠ null) (hfresh : memory.blocks node = none)
    (hblocks : memory'.blocks = Function.update memory.blocks node (some contents'))
    (hcontext : memory'.context = some ({ node, pointer := p } :: allocations)) :
    Managed (Function.update base p none) (Function.update owned p (some contents))
      ({ node, pointer := p } :: allocations) memory' := by
  have hp' : p ∉ records allocations := by
    intro hmem
    have hnone := (h.fresh p hmem).2
    rw [hbase] at hnone
    cases hnone
  have hnode' : node ∉ records allocations := h.not_mem hfresh
  have hblock : memory.blocks p = some contents := (h.frame p hp').trans hbase
  have hne : node ≠ p := by
    rintro rfl
    rw [hfresh] at hblock
    cases hblock
  refine ⟨hcontext, ?_, ?_, ?_, ?_, ?_⟩
  · refine List.nodup_cons.mpr ⟨?_, List.nodup_cons.mpr ⟨hp', h.distinct⟩⟩
    rw [List.mem_cons, not_or]
    exact ⟨hne, hnode'⟩
  · intro r hr
    rcases List.mem_cons.mp hr with rfl | hr
    · exact ⟨hnode, by rw [Function.update_of_ne hne, ← h.frame _ hnode', hfresh]⟩
    · rcases List.mem_cons.mp hr with rfl | hr
      · exact ⟨hp, Function.update_self _ _ _⟩
      · obtain ⟨hnull, hnone⟩ := h.fresh r hr
        exact ⟨hnull, by rw [Function.update_of_ne (ne_of_mem_of_not_mem hr hp'), hnone]⟩
  · intro r hr
    rw [hblocks, Function.update_apply]
    split
    · rfl
    · rename_i hr'
      rcases List.mem_cons.mp hr with rfl | hr
      · exact absurd rfl hr'
      · rcases List.mem_cons.mp hr with rfl | hr
        · rw [hblock]
          rfl
        · exact h.live r hr
  · intro r hr
    rw [records, List.mem_cons, List.mem_cons, not_or, not_or] at hr
    rw [hblocks, Function.update_of_ne hr.1, Function.update_of_ne hr.2.1, h.frame r hr.2.2]
  · intro r
    rw [List.map_cons, Function.update_apply]
    by_cases hr : r = p
    · rw [if_pos hr, if_pos (by rw [hr]; exact List.mem_cons_self), hblocks, hr,
        Function.update_of_ne hne.symm, hblock]
    · rw [if_neg hr, h.owned r, hblocks]
      by_cases hmem : r ∈ allocations.map AsmAllocation.pointer
      · rw [if_pos hmem, if_pos (List.mem_cons_of_mem _ hmem), Function.update_of_ne]
        rintro rfl
        exact hnode' (mem_records_of_pointer hmem)
      · rw [if_neg hmem, if_neg]
        rw [List.mem_cons, not_or]
        exact ⟨hr, hmem⟩

/-- What the records around one account for. -/
structure Unshared (allocation : AsmAllocation) (others : List Pointer) : Prop where
  node : allocation.node ∉ others
  pointer : allocation.pointer ∉ others
  distinct : allocation.node ≠ allocation.pointer

theorem Managed.apart (h : Managed base owned (before ++ allocation :: after) memory) :
    Unshared allocation (records (before ++ after)) ∧ (records (before ++ after)).Nodup := by
  have hdistinct := (records_perm before after allocation).nodup_iff.mp h.distinct
  rw [List.nodup_cons, List.nodup_cons, List.mem_cons, not_or] at hdistinct
  obtain ⟨⟨hne, hnode⟩, hpointer, hrest⟩ := hdistinct
  exact ⟨⟨hnode, hpointer, hne⟩, hrest⟩

theorem mem_records_middle {r : Pointer} :
    r ∈ records (before ++ allocation :: after) ↔
      r = allocation.node ∨ r = allocation.pointer ∨ r ∈ records (before ++ after) := by
  rw [(records_perm before after allocation).mem_iff, List.mem_cons, List.mem_cons]

theorem mem_pointers_middle {r : Pointer} :
    r ∈ (before ++ allocation :: after).map AsmAllocation.pointer ↔
      r = allocation.pointer ∨ r ∈ (before ++ after).map AsmAllocation.pointer := by
  simp only [List.map_append, List.map_cons, List.mem_append, List.mem_cons]
  exact or_left_comm

/-- A block is not recorded any more. -/
theorem Managed.forget (h : Managed base owned (before ++ allocation :: after) memory)
    (hblocks : memory'.blocks = Function.update memory.blocks allocation.node none)
    (hcontext : memory'.context = some (before ++ after)) :
    Managed (Function.update base allocation.pointer (memory.blocks allocation.pointer))
      (Function.update owned allocation.pointer none) (before ++ after) memory' := by
  obtain ⟨hapart, hdistinct⟩ := h.apart
  refine ⟨hcontext, hdistinct, ?_, ?_, ?_, ?_⟩
  · intro r hr
    obtain ⟨hnull, hbase⟩ := h.fresh r (mem_records_middle.mpr (.inr (.inr hr)))
    exact ⟨hnull, by rw [Function.update_of_ne (ne_of_mem_of_not_mem hr hapart.pointer), hbase]⟩
  · intro r hr
    rw [hblocks, Function.update_of_ne (ne_of_mem_of_not_mem hr hapart.node)]
    exact h.live r (mem_records_middle.mpr (.inr (.inr hr)))
  · intro r hr
    rw [hblocks, Function.update_apply, Function.update_apply]
    by_cases hnode : r = allocation.node
    · have hbase := (h.fresh r (mem_records_middle.mpr (.inl hnode))).2
      rw [if_pos hnode, if_neg (hnode ▸ hapart.distinct), hbase]
    · rw [if_neg hnode]
      by_cases hpointer : r = allocation.pointer
      · rw [if_pos hpointer, hpointer]
      · rw [if_neg hpointer, h.frame r]
        rw [mem_records_middle]
        rintro (hr' | hr' | hr')
        · exact hnode hr'
        · exact hpointer hr'
        · exact hr hr'
  · intro r
    rw [Function.update_apply]
    by_cases hpointer : r = allocation.pointer
    · rw [if_pos hpointer, if_neg]
      rw [hpointer]
      exact fun hmem => hapart.pointer (mem_records_of_pointer hmem)
    · rw [if_neg hpointer, h.owned r, hblocks]
      by_cases hmem : r ∈ (before ++ after).map AsmAllocation.pointer
      · rw [if_pos (mem_pointers_middle.mpr (.inr hmem)), if_pos hmem, Function.update_of_ne]
        rintro rfl
        exact hapart.node (mem_records_of_pointer hmem)
      · rw [if_neg hmem, if_neg]
        rw [mem_pointers_middle, not_or]
        exact ⟨hpointer, hmem⟩

/-- The address that a block is moved to is free. -/
theorem Managed.moved (h : Managed base owned (before ++ allocation :: after) memory)
    (hq : q = allocation.pointer ∨ memory.blocks q = none) :
    base q = none ∧ q ≠ allocation.node ∧ q ∉ records (before ++ after) := by
  obtain ⟨hapart, -⟩ := h.apart
  rcases hq with rfl | hq
  · exact ⟨(h.fresh _ (mem_records_middle.mpr (.inr (.inl rfl)))).2, hapart.distinct.symm,
      hapart.pointer⟩
  · have hnot := h.not_mem hq
    have hbase : base q = none := (h.frame q hnot).symm.trans hq
    rw [mem_records_middle, not_or, not_or] at hnot
    exact ⟨hbase, hnot.1, hnot.2.2⟩

/-- A block is moved. -/
theorem Managed.replace (h : Managed base owned (before ++ allocation :: after) memory)
    (hnull : q ≠ null) (hq : q = allocation.pointer ∨ memory.blocks q = none)
    (hblocks : memory'.blocks
      = Function.update (Function.update memory.blocks allocation.pointer none) q (some contents))
    (hcontext : memory'.context = some (before ++ { allocation with pointer := q } :: after)) :
    Managed base (Function.update (Function.update owned allocation.pointer none) q (some contents))
      (before ++ { allocation with pointer := q } :: after) memory' := by
  obtain ⟨hapart, hdistinct⟩ := h.apart
  obtain ⟨hbase, hnode, hothers⟩ := h.moved hq
  -- what is recorded besides the block
  have hkept : ∀ r, r ≠ q → r ≠ allocation.pointer → memory'.blocks r = memory.blocks r := by
    intro r hr hr'
    rw [hblocks, Function.update_of_ne hr, Function.update_of_ne hr']
  have hother : ∀ r ∈ records (before ++ after), r ≠ q ∧ r ≠ allocation.pointer := fun r hr =>
    ⟨ne_of_mem_of_not_mem hr hothers, ne_of_mem_of_not_mem hr hapart.pointer⟩
  refine ⟨hcontext, ?_, ?_, ?_, ?_, ?_⟩
  · refine (records_perm before after _).nodup_iff.mpr (List.nodup_cons.mpr ⟨?_, ?_⟩)
    · rw [List.mem_cons, not_or]
      exact ⟨hnode.symm, hapart.node⟩
    · exact List.nodup_cons.mpr ⟨hothers, hdistinct⟩
  · intro r hr
    rcases mem_records_middle.mp hr with rfl | rfl | hr
    · exact h.fresh _ (mem_records_middle.mpr (.inl rfl))
    · exact ⟨hnull, hbase⟩
    · exact h.fresh r (mem_records_middle.mpr (.inr (.inr hr)))
  · intro r hr
    rcases mem_records_middle.mp hr with rfl | rfl | hr
    · rw [hkept _ hnode.symm hapart.distinct]
      exact h.live _ (mem_records_middle.mpr (.inl rfl))
    · rw [hblocks, Function.update_self]
      rfl
    · rw [hkept r (hother r hr).1 (hother r hr).2]
      exact h.live r (mem_records_middle.mpr (.inr (.inr hr)))
  · intro r hr
    rw [mem_records_middle, not_or, not_or] at hr
    by_cases hpointer : r = allocation.pointer
    · have hnone := (h.fresh _ (mem_records_middle.mpr (.inr (.inl rfl)))).2
      rw [hblocks, Function.update_of_ne hr.2.1, hpointer, Function.update_self, hnone]
    · rw [hkept r hr.2.1 hpointer]
      refine h.frame r ?_
      rw [mem_records_middle, not_or, not_or]
      exact ⟨hr.1, hpointer, hr.2.2⟩
  · intro r
    rw [Function.update_apply]
    by_cases hr : r = q
    · rw [if_pos hr, if_pos (mem_pointers_middle.mpr (.inl hr)), hblocks, hr, Function.update_self]
    · rw [if_neg hr, Function.update_apply]
      by_cases hpointer : r = allocation.pointer
      · rw [if_pos hpointer]
        split
        · rw [hblocks, Function.update_of_ne hr, hpointer, Function.update_self]
        · rfl
      · rw [if_neg hpointer, h.owned r, hkept r hr hpointer]
        have hiff : r ∈ (before ++ allocation :: after).map AsmAllocation.pointer ↔
            r ∈ (before ++ { allocation with pointer := q } :: after).map
              AsmAllocation.pointer := by
          rw [mem_pointers_middle, mem_pointers_middle]
          exact ⟨fun hmem => .inr (hmem.resolve_left hpointer),
            fun hmem => .inr (hmem.resolve_left hr)⟩
        exact if_congr hiff rfl rfl

/-- Nothing is left but the base, once all blocks of the records are freed. -/
theorem Managed.base_eq (h : Managed base owned [] memory) : memory.blocks = base :=
  funext fun p => h.frame p List.not_mem_nil

/-! ### Freeing -/

/-- `free` of a block that is there, or of null. -/
theorem AsmMemory.free_eq_ok (h : Heap.Owned memory.blocks p) :
    ∃ memory', memory.free p = .ok memory' ∧
      memory'.blocks = Function.update memory.blocks p none ∧ memory'.context = memory.context ∧
      memory'.refusals = memory.refusals := by
  obtain ⟨heap, hfree, hblocks, hserved⟩ := Heap.free_of_owned h
  refine ⟨{ memory with toHeap := heap }, ?_, hblocks, rfl, hserved⟩
  rw [AsmMemory.free, hfree]

/-- **`asm_memory_release_all`** frees what is recorded and nothing else. -/
theorem releaseAll_ok (h : Managed base owned allocations memory) :
    ∃ memory', releaseAll allocations memory = .ok memory' ∧ memory'.blocks = base ∧
      memory'.refusals = memory.refusals := by
  induction allocations generalizing base owned memory with
  | nil => exact ⟨memory, rfl, h.base_eq, rfl⟩
  | cons allocation rest ih =>
      have h' : Managed base owned ([] ++ allocation :: rest) memory := h
      obtain ⟨hapart, -⟩ := h'.apart
      obtain ⟨memory₁, hfree₁, hblocks₁, hcontext₁, hserved₁⟩ :=
        @AsmMemory.free_eq_ok { memory with context := some rest } allocation.pointer
          (.inr (h.live _ (List.mem_cons_of_mem _ List.mem_cons_self)))
      obtain ⟨memory₂, hfree₂, hblocks₂, hcontext₂, hserved₂⟩ :=
        @AsmMemory.free_eq_ok memory₁ allocation.node
          (.inr (by
            rw [hblocks₁, Function.update_of_ne hapart.distinct]
            exact h.live _ List.mem_cons_self))
      -- the invariant speaks of the record before the block, the code frees the block first
      obtain ⟨memory₃, -, hblocks₃, hcontext₃, -⟩ :=
        @AsmMemory.free_eq_ok { memory with context := some rest } allocation.node
          (.inr (h.live _ List.mem_cons_self))
      have hforgotten := h'.forget hblocks₃ hcontext₃
      have hpointer := (h.fresh _ (List.mem_cons_of_mem _ List.mem_cons_self)).2
      have hmanaged : Managed base (Function.update owned allocation.pointer none) rest memory₂ := by
        have houtside := hforgotten.outside hapart.pointer
          (by
            rw [hblocks₂, hblocks₁, hblocks₃]
            exact Function.update_comm hapart.distinct.symm _ _ _)
          (hcontext₂.trans (hcontext₁.trans hcontext₃.symm))
        rwa [Function.update_idem, Function.update_eq_self_iff.mpr hpointer.symm] at houtside
      obtain ⟨memory', hrelease, hreleased, hserved'⟩ := ih hmanaged
      refine ⟨memory', ?_, hreleased, hserved'.trans (hserved₂.trans hserved₁)⟩
      simp only [releaseAll]
      rw [hfree₁, ok_bind, hfree₂, ok_bind, hrelease]

/-! ### Allocating -/

/-- The stages have jumped out, the invariant holds, and the failure is of a kind that the refused
calls admit. -/
inductive Jumped (base : Blocks Byte) (kind : ℕ → AsmFailure → Prop) : AsmStop → Prop
  | intro {failure : AsmFailure} {memory : AsmMemory} {owned : Blocks Byte}
      {allocations : List AsmAllocation} (managed : Managed base owned allocations memory)
      (failed : kind memory.refusals failure) : Jumped base kind (.jumped failure memory)

/-- The stages own these blocks, and no call of theirs has been refused. -/
structure Owns (start : ℕ) (base owned : Blocks Byte) (memory : AsmMemory) : Prop where
  served : memory.refusals = start
  recorded : ∃ allocations, Managed base owned allocations memory

variable {libc : Libc Byte} {start : ℕ} {kind : ℕ → AsmFailure → Prop}

theorem Managed.jumped (h : Managed base owned allocations memory) {failure : AsmFailure}
    (hkind : kind memory.refusals failure) : Jumped base kind (memory.fail failure) := by
  unfold AsmMemory.fail
  rw [h.context]
  exact .intro h hkind

/-- A call that has changed no block. -/
theorem Managed.same (h : Managed base owned allocations memory) {heap : Heap Byte}
    (hsame : heap.blocks = memory.blocks) :
    Managed base owned allocations { memory with toHeap := heap } where
  context := h.context
  distinct := h.distinct
  fresh := h.fresh
  live p hp := by
    show (heap.blocks p).isSome = true
    rw [hsame, h.live p hp]
  frame p hp := by
    show heap.blocks p = base p
    rw [hsame, h.frame p hp]
  owned p := by
    show _ = if _ then heap.blocks p else none
    rw [hsame, h.owned p]

/-- A refused call makes the stages jump out. -/
theorem Managed.refused (h : Managed base owned allocations memory) {heap : Heap Byte}
    (hsame : heap.blocks = memory.blocks) (hcounted : heap.refusals = memory.refusals + 1)
    (hserved : memory.refusals = start) {failure : AsmFailure} (hkind : kind (start + 1) failure) :
    Jumped base kind ({ memory with toHeap := heap : AsmMemory }.fail failure) := by
  refine (h.same hsame).jumped ?_
  show kind heap.refusals failure
  rw [hcounted, hserved]
  exact hkind

/-- `track` records a new block, or frees it. -/
theorem Managed.track (h : Managed base owned allocations memory) (hnull : p ≠ null)
    (hfresh : memory.blocks p = none)
    (hblocks : memory'.blocks = Function.update memory.blocks p (some contents))
    (hcontext : memory'.context = memory.context) (hserved : memory'.refusals = start)
    (hkind : kind (start + 1) outOfMemory) :
    Ensures (track libc p memory') (Owns start base (Function.update owned p (some contents)))
      (Jumped base kind) := by
  have hnot := h.not_mem hfresh
  have hbase : base p = none := (h.frame p hnot).symm.trans hfresh
  have hrestored : Function.update (Function.update base p (some contents)) p none = base := by
    rw [Function.update_idem, Function.update_eq_self_iff.mpr hbase.symm]
  have h' := h.outside hnot hblocks hcontext
  unfold Zlvm.track
  rw [h'.context]
  dsimp only
  have hplaced := Heap.malloc_placed libc asmAllocationSize memory'.toHeap
  generalize memory'.toHeap.malloc libc asmAllocationSize = result at hplaced ⊢
  obtain ⟨node, heap⟩ := result
  dsimp only at hplaced ⊢
  cases hplaced with
  | refused isNull same counted =>
      obtain ⟨memory'', hfree, hblocks'', hcontext'', hserved''⟩ :=
        @AsmMemory.free_eq_ok { toHeap := heap, context := some allocations } p (.inr (by
          show (heap.blocks p).isSome = true
          rw [same, hblocks, Function.update_self]
          rfl))
      rw [if_pos isNull, hfree, ok_bind]
      have houtside := h'.outside hnot (hblocks''.trans (by rw [← same]))
        (hcontext''.trans h'.context.symm)
      rw [hrestored] at houtside
      refine houtside.jumped ?_
      rw [hserved'', counted, hserved]
      exact hkind
  | placed notNull fresh block served =>
      rw [if_neg notNull]
      have hrecord : Managed _ _ ({ node, pointer := p } :: allocations)
          { toHeap := heap, context := some ({ node, pointer := p } :: allocations) } :=
        h'.record hnull (Function.update_self _ _ _) notNull fresh block rfl
      rw [hrestored] at hrecord
      exact ⟨served.trans hserved, _, hrecord⟩

/-- A block that has been placed is recorded, and the stages own it. -/
theorem Owns.allocate (h : Owns start base owned memory) {heap : Heap Byte}
    (hplaced : Heap.Placed memory.toHeap contents p heap) (hkind : kind (start + 1) outOfMemory) :
    Ensures (do
        require (p ≠ null) ({ memory with toHeap := heap : AsmMemory }.fail outOfMemory)
        let memory ← Zlvm.track libc p { memory with toHeap := heap }
        return (p, memory))
      (fun result => result.1 ≠ null ∧ owned result.1 = none ∧
        Owns start base (Function.update owned result.1 (some contents)) result.2)
      (Jumped base kind) := by
  obtain ⟨hserved, allocations, h⟩ := h
  cases hplaced with
  | refused isNull same counted =>
      exact Ensures.require_bind (fun _ => h.refused same counted hserved hkind)
        fun hnull => absurd isNull hnull
  | placed notNull fresh block served =>
      refine Ensures.require_bind (fun hnull => absurd notNull hnull) fun _ => ?_
      have htrack : Ensures (Zlvm.track libc p { memory with toHeap := heap }) _ (Jumped base kind) :=
        h.track notNull fresh block rfl (served.trans hserved) hkind
      refine htrack.bind fun memory' hmemory' => ?_
      have howned : owned p = none := by
        rw [h.owned p, if_neg fun hmem => h.not_mem fresh (mem_records_of_pointer hmem)]
      exact ⟨notNull, howned, hmemory'⟩

/-- **`asm_malloc`** -/
theorem asmMalloc_ensures (h : Owns start base owned memory) (size : ℕ)
    (hkind : kind (start + 1) outOfMemory) :
    Ensures (asmMalloc libc size memory)
      (fun result => result.1 ≠ null ∧ owned result.1 = none ∧ ∃ contents,
        contents.length = atLeastOne size ∧
          Owns start base (Function.update owned result.1 (some contents)) result.2)
      (Jumped base kind) := by
  refine (h.allocate (Heap.malloc_placed libc (atLeastOne size) memory.toHeap)
    hkind).mono ?_ fun _ hstop => hstop
  rintro result ⟨hnull, howned, hholds⟩
  exact ⟨hnull, howned, _, Heap.length_garbage _ _ _, hholds⟩

/-- **`asm_calloc`** -/
theorem asmCalloc_ensures (h : Owns start base owned memory) (count size : ℕ)
    (hkind : kind (start + 1) outOfMemory) :
    Ensures (asmCalloc libc count size memory)
      (fun result => result.1 ≠ null ∧ owned result.1 = none ∧
        Owns start base (Function.update owned result.1
          (some (List.replicate (atLeastOne count * atLeastOne size) 0))) result.2)
      (Jumped base kind) :=
  h.allocate (Heap.calloc_placed libc 0 (atLeastOne count) (atLeastOne size) memory.toHeap) hkind

/-- Writing to a block that the stages own. -/
theorem Managed.write (h : Managed base owned allocations memory) (howned : (owned p).map List.length
    = some contents.length) : ∃ memory', memory.write p contents = .ok memory' ∧
      memory'.refusals = memory.refusals ∧
      Managed base (Function.update owned p (some contents)) allocations memory' := by
  have hmem : p ∈ allocations.map AsmAllocation.pointer := by
    by_contra hmem
    rw [h.owned p, if_neg hmem] at howned
    cases howned
  have hnull := (h.fresh p (mem_records_of_pointer hmem)).1
  rw [h.owned p, if_pos hmem] at howned
  refine ⟨{ memory with toHeap := memory.toHeap.set p hnull (some contents) },
    dif_pos ⟨hnull, howned⟩, rfl, h.context, h.distinct, h.fresh, ?_, ?_, ?_⟩
  · intro r hr
    show (Function.update memory.blocks p (some contents) r).isSome = true
    rw [Function.update_apply]
    split
    · rfl
    · exact h.live r hr
  · intro r hr
    refine (Function.update_of_ne ?_ _ _).trans (h.frame r hr)
    exact (ne_of_mem_of_not_mem (mem_records_of_pointer hmem) hr).symm
  · intro r
    show _ = if _ then Function.update memory.blocks p (some contents) r else none
    rw [Function.update_apply, Function.update_apply, h.owned r]
    by_cases hr : r = p
    · rw [if_pos hr, if_pos hr, if_pos (hr ▸ hmem)]
    · rw [if_neg hr, if_neg hr]

/-- **`asm_strdup`** -/
theorem asmStrdup_ensures (h : Owns start base owned memory) (string : CString)
    (hkind : kind (start + 1) outOfMemory) :
    Ensures (asmStrdup libc (some string) memory)
      (fun result => result.1 ≠ null ∧ owned result.1 = none ∧
        Owns start base (Function.update owned result.1 (some (string.bytes ++ [0]))) result.2)
      (Jumped base kind) := by
  refine (asmMalloc_ensures h (string.bytes.length + 1) hkind).bind ?_
  rintro ⟨p, memory'⟩ ⟨hnull, howned, contents, hlength, hserved, allocations, hmanaged⟩
  dsimp only at hnull howned hserved hmanaged ⊢
  obtain ⟨memory'', hwrite, hserved', hmanaged'⟩ :=
    @Managed.write _ _ _ p _ (string.bytes ++ [0]) hmanaged (by
      rw [Function.update_self, Option.map_some, hlength, List.length_append]
      rfl)
  rw [hwrite, ok_bind]
  rw [Function.update_idem] at hmanaged'
  exact ⟨hnull, howned, hserved'.trans hserved, allocations, hmanaged'⟩

/-! ### Moving and freeing -/

/-- What the stages own, or null. -/
theorem Managed.find (h : Managed base owned allocations memory) (hp : Heap.Owned owned p) :
    (p = null ∧ findAllocation p allocations = none) ∨
      ∃ before allocation after, findAllocation p allocations = some (before, allocation, after) ∧
        allocations = before ++ allocation :: after ∧ allocation.pointer = p ∧
        owned p = memory.blocks p := by
  have hmem : p ∈ allocations.map AsmAllocation.pointer ∨ p = null := by
    by_cases hmem : p ∈ allocations.map AsmAllocation.pointer
    · exact .inl hmem
    · refine .inr (hp.resolve_right fun hsome => ?_)
      rw [h.owned p, if_neg hmem] at hsome
      cases hsome
  cases hfind : findAllocation p allocations with
  | none => exact .inl ⟨hmem.resolve_left (findAllocation_eq_none hfind), rfl⟩
  | some found =>
      obtain ⟨before, allocation, after⟩ := found
      obtain ⟨rfl, rfl⟩ := findAllocation_eq_some hfind
      refine .inr ⟨before, allocation, after, rfl, rfl, rfl, ?_⟩
      rw [h.owned, if_pos (mem_pointers_middle.mpr (.inl rfl))]

/-- The stages own nothing at null. -/
theorem Managed.owned_null (h : Managed base owned allocations memory) : owned null = none := by
  rw [h.owned, memory.null_free, ite_self]

/-- **`asm_realloc`** of a block that the stages own, or of null. -/
theorem asmRealloc_ensures (h : Owns start base owned memory) (hp : Heap.Owned owned p) (size : ℕ)
    (hkind : kind (start + 1) outOfMemory) :
    Ensures (asmRealloc libc p size memory)
      (fun result => result.1 ≠ null ∧ (result.1 = p ∨ owned result.1 = none) ∧
        ∃ rest, rest.length = atLeastOne size - (Heap.contents owned p).length ∧
          Owns start base (Function.update (Function.update owned p none) result.1
            (some ((Heap.contents owned p).take (atLeastOne size) ++ rest))) result.2)
      (Jumped base kind) := by
  obtain ⟨hserved, allocations, h⟩ := h
  have hfind := h.find hp
  have hcontents : Heap.contents owned p = Heap.contents memory.blocks p := by
    rcases hfind with ⟨hnull, -⟩ | ⟨-, -, -, -, -, -, howned⟩
    · rw [Heap.contents, Heap.contents, hnull, h.owned_null, memory.null_free]
    · rw [Heap.contents, Heap.contents, howned]
  have hblock : Heap.Owned memory.blocks p := by
    rcases hfind with ⟨hnull, -⟩ | ⟨-, -, -, -, -, -, howned⟩
    · exact .inl hnull
    · exact hp.imp_right fun hsome => howned ▸ hsome
  obtain ⟨q, heap, hrealloc, hresized⟩ := Heap.realloc_resized libc (atLeastOne size) hblock
  have hallocation : memory.context.bind (findAllocation p) = findAllocation p allocations := by
    rw [h.context, Option.bind_some]
  unfold asmRealloc
  rw [hrealloc, hallocation, hcontents]
  dsimp only
  cases hresized with
  | refused isNull same counted =>
      exact Ensures.require_bind (fun _ => h.refused same counted hserved hkind)
        fun hnull => absurd isNull hnull
  | resized notNull fresh rest length block served =>
      refine Ensures.require_bind (fun hnull => absurd notNull hnull) fun _ => ?_
      rcases hfind with ⟨rfl, hnone⟩ | ⟨before, allocation, after, hsome, rfl, rfl, howned⟩
      · -- there was no block
        have hfresh := fresh.resolve_left notNull
        rw [hnone]
        rw [Heap.update_null] at block
        have htrack : Ensures (Zlvm.track libc q { memory with toHeap := heap }) _
            (Jumped base kind) := h.track notNull hfresh block rfl (served.trans hserved) hkind
        refine htrack.bind fun memory' hmemory' => ?_
        have howned : owned q = none := by
          rw [h.owned q, if_neg fun hmem => h.not_mem hfresh (mem_records_of_pointer hmem)]
        have hnull : Function.update owned null none = owned :=
          Function.update_eq_self_iff.mpr h.owned_null.symm
        refine ⟨notNull, .inr howned, rest, length, ?_⟩
        rwa [hnull]
      · -- the record is the one of the new block
        rw [hsome]
        refine ⟨notNull, ?_, rest, length, served.trans hserved, _,
          h.replace notNull fresh block rfl⟩
        refine fresh.imp_right fun hfresh => ?_
        rw [h.owned q, if_neg fun hmem => h.not_mem hfresh (mem_records_of_pointer hmem)]

/-- **`asm_memory_detach`** of a block that the stages own. -/
theorem asmMemoryDetach_ok (h : Owns start base owned memory) (hp : owned p = some contents) :
    ∃ memory', asmMemoryDetach p memory = .ok memory' ∧
      Owns start (Function.update base p (some contents)) (Function.update owned p none) memory' ∧
      base p = none ∧ p ≠ null ∧ memory'.blocks p = some contents := by
  obtain ⟨hserved, allocations, h⟩ := h
  have hsome : (owned p).isSome = true := by
    rw [hp]
    rfl
  rcases h.find (.inr hsome) with ⟨rfl, -⟩ | ⟨before, allocation, after, hsome, rfl, rfl, howned⟩
  · rw [h.owned_null] at hp
    cases hp
  · obtain ⟨hapart, -⟩ := h.apart
    obtain ⟨hnull, hbase⟩ := h.fresh _ (mem_records_middle.mpr (.inr (.inl rfl)))
    obtain ⟨memory', hfree, hblocks, hcontext, hserved'⟩ :=
      @AsmMemory.free_eq_ok { memory with context := some (before ++ after) } allocation.node
        (.inr (h.live _ (mem_records_middle.mpr (.inl rfl))))
    have hforgotten := h.forget hblocks hcontext
    rw [← howned, hp] at hforgotten
    refine ⟨memory', ?_, ⟨hserved'.trans hserved, _, hforgotten⟩, hbase, hnull, ?_⟩
    · unfold asmMemoryDetach
      rw [h.context, Option.bind_some, hsome]
      exact hfree
    · rw [hblocks, Function.update_of_ne hapart.distinct.symm, ← hp, howned]

/-- **`asm_free`** of a block that the stages own, or of null. -/
theorem asmFree_ok (h : Owns start base owned memory) (hp : Heap.Owned owned p) :
    ∃ memory', asmFree p memory = .ok memory' ∧
      Owns start base (Function.update owned p none) memory' := by
  cases hcontents : owned p with
  | none =>
      obtain ⟨hserved, allocations, hmanaged⟩ := h
      obtain rfl := hp.resolve_right (by simp [hcontents])
      rcases hmanaged.find (.inl rfl) with ⟨-, hnone⟩ | ⟨_, _, _, -, rfl, hpointer, -⟩
      · refine ⟨memory, ?_, hserved, allocations, ?_⟩
        · unfold asmFree asmMemoryDetach
          rw [hmanaged.context, Option.bind_some, hnone]
          rfl
        · rwa [Function.update_eq_self_iff.mpr hcontents.symm]
      · exact absurd hpointer
          (hmanaged.fresh _ (mem_records_middle.mpr (.inr (.inl rfl)))).1
  | some contents =>
      obtain ⟨memory₁, hdetach, ⟨hserved, allocations, hdetached⟩, hbase, -, hblock⟩ :=
        asmMemoryDetach_ok h hcontents
      obtain ⟨memory₂, hfree, hblocks, hcontext, hserved'⟩ :=
        @AsmMemory.free_eq_ok memory₁ p (.inr (by
          rw [hblock]
          rfl))
      refine ⟨memory₂, ?_, hserved'.trans hserved, allocations, ?_⟩
      · rw [asmFree, hdetach, ok_bind, hfree]
      · have hnot : p ∉ records allocations := by
          intro hmem
          have hnone := (hdetached.fresh p hmem).2
          rw [Function.update_self] at hnone
          cases hnone
        have houtside := hdetached.outside hnot hblocks hcontext
        rwa [Function.update_idem, Function.update_eq_self_iff.mpr hbase.symm] at houtside

end Managed

/-! ## What the stages compute -/

/-- The stages use what they own and nothing else, and come to `x`, whatever addresses they are given
and whatever uninitialised memory holds. -/
def AsmWork.Computes (x : Except AsmFailure Bytes) : Blocks Byte → AsmWork → Prop
  | owned, .finish binary size => ∃ contents, owned binary = some contents ∧
      x = .ok (contents.take size)
  | _, .encode binary => x = .ok binary
  | _, .fail failure => x = .error failure
  | owned, .malloc size next => ∀ p contents, p ≠ null → owned p = none →
      contents.length = atLeastOne size →
      (next p).Computes x (Function.update owned p (some contents))
  | owned, .calloc count size next => ∀ p, p ≠ null → owned p = none →
      (next p).Computes x (Function.update owned p
        (some (List.replicate (atLeastOne count * atLeastOne size) 0)))
  | owned, .realloc pointer size next => Heap.Owned owned pointer ∧
      ∀ p rest, p ≠ null → (p = pointer ∨ owned p = none) →
        rest.length = atLeastOne size - (Heap.contents owned pointer).length →
        (next p).Computes x (Function.update (Function.update owned pointer none) p
          (some ((Heap.contents owned pointer).take (atLeastOne size) ++ rest)))
  | owned, .strdup (some string) next => ∀ p, p ≠ null → owned p = none →
      (next p).Computes x (Function.update owned p (some (string.bytes ++ [0])))
  | _, .strdup none _ =>
      x = .error (asmFail .internalError "Cannot duplicate a null string")
  | owned, .free pointer next => Heap.Owned owned pointer ∧
      next.Computes x (Function.update owned pointer none)
  | owned, .write pointer contents next =>
      (owned pointer).map List.length = some contents.length ∧
        next.Computes x (Function.update owned pointer (some contents))
  | owned, .read pointer next => ∃ contents, owned pointer = some contents ∧
      (next contents).Computes x owned

/-- The stages have come to a binary: in a block of theirs, or in one that is not recorded. -/
inductive Finished (start : ℕ) (base : Blocks Byte) (x : Except AsmFailure Bytes) :
    (Pointer × ℕ) × AsmMemory → Prop
  | recorded {owned : Blocks Byte} {memory : AsmMemory} {binary : Pointer} {size : ℕ}
      {contents : Bytes} (holds : Owns start base owned memory)
      (block : owned binary = some contents) (computed : x = .ok (contents.take size)) :
      Finished start base x ((binary, size), memory)
  | encoded {owned : Blocks Byte} {memory : AsmMemory} {binary : Pointer} {contents : Bytes}
      (notNull : binary ≠ null) (fresh : base binary = none)
      (holds : Owns start (Function.update base binary (some contents)) owned memory)
      (computed : x = .ok contents) : Finished start base x ((binary, contents.length), memory)

/-- What a refused allocation fails with. -/
def IsRefusal (failure : AsmFailure) : Prop := failure = outOfMemory ∨ failure = encodingFailure

/-- The failures of work that comes to `x`: its own if no call has been refused, otherwise the one of
the refused call. -/
def FailureOf (x : Except AsmFailure Bytes) (start refusals : ℕ) (failure : AsmFailure) : Prop :=
  refusals = start ∧ x = .error failure ∨ refusals = start + 1 ∧ IsRefusal failure

section Work

variable {libc : Libc Byte} {x : Except AsmFailure Bytes} {start : ℕ} {base owned : Blocks Byte}
  {memory : AsmMemory}

/-- `zl_image_encode` and its block. -/
theorem encode_ensures (h : Owns start base owned memory) {contents : Bytes}
    (hx : x = .ok contents) :
    Ensures ((AsmWork.encode contents).run libc memory) (Finished start base x)
      (Jumped base (FailureOf x start)) := by
  obtain ⟨hserved, allocations, h⟩ := h
  have hplaced := Heap.malloc_placed libc contents.length memory.toHeap
  have hlength := Heap.length_garbage memory.toHeap libc contents.length
  generalize memory.toHeap.garbage libc contents.length = garbage at hplaced hlength
  unfold AsmWork.run
  generalize memory.toHeap.malloc libc contents.length = result at hplaced ⊢
  obtain ⟨p, heap⟩ := result
  dsimp only at hplaced ⊢
  cases hplaced with
  | refused isNull same counted =>
      exact Ensures.require_bind
        (fun _ => h.refused same counted hserved (.inr ⟨rfl, .inr rfl⟩))
        fun hnull => absurd isNull hnull
  | placed notNull fresh block served =>
      refine Ensures.require_bind (fun hnull => absurd notNull hnull) fun _ => ?_
      have hnot := h.not_mem fresh
      have hbase : base p = none := (h.frame p hnot).symm.trans fresh
      have hblock : (heap.blocks p).map List.length = some contents.length := by
        rw [block, Function.update_self, Option.map_some, hlength]
      have hwrite : AsmMemory.write p contents { memory with toHeap := heap }
          = .ok { memory with toHeap := heap.set p notNull (some contents) } :=
        dif_pos ⟨notNull, hblock⟩
      have hmanaged : Managed (Function.update base p (some contents)) owned allocations
          { memory with toHeap := heap.set p notNull (some contents) } := by
        refine h.outside hnot ?_ rfl
        show Function.update heap.blocks p (some contents) = _
        rw [block, Function.update_idem]
      rw [hwrite, ok_bind]
      exact .encoded notNull hbase ⟨served.trans hserved, _, hmanaged⟩ hx

/-- **The stages** keep the invariant, and come to what they compute unless a call is refused. -/
theorem run_ensures (work : AsmWork) : ∀ {owned : Blocks Byte} {memory : AsmMemory},
    Owns start base owned memory → work.Computes x owned →
      Ensures (work.run libc memory) (Finished start base x)
        (Jumped base (FailureOf x start)) := by
  have hkind : FailureOf x start (start + 1) outOfMemory := .inr ⟨rfl, .inl rfl⟩
  induction work with
  | finish binary size =>
      rintro owned memory h ⟨contents, hblock, hx⟩
      exact .recorded h hblock hx
  | encode contents =>
      intro owned memory h hx
      exact encode_ensures h hx
  | fail failure =>
      rintro owned memory ⟨hserved, allocations, h⟩ hx
      exact h.jumped (.inl ⟨hserved, hx⟩)
  | malloc size next ih =>
      intro owned memory h hnext
      refine (asmMalloc_ensures h size hkind).bind ?_
      rintro ⟨p, memory'⟩ ⟨hnull, howned, contents, hlength, h'⟩
      exact ih p h' (hnext p contents hnull howned hlength)
  | calloc count size next ih =>
      intro owned memory h hnext
      refine (asmCalloc_ensures h count size hkind).bind ?_
      rintro ⟨p, memory'⟩ ⟨hnull, howned, h'⟩
      exact ih p h' (hnext p hnull howned)
  | realloc pointer size next ih =>
      rintro owned memory h ⟨hpointer, hnext⟩
      refine (asmRealloc_ensures h hpointer size hkind).bind ?_
      rintro ⟨p, memory'⟩ ⟨hnull, hfresh, rest, hlength, h'⟩
      exact ih p h' (hnext p rest hnull hfresh hlength)
  | strdup string next ih =>
      intro owned memory h hnext
      cases string with
      | none =>
          obtain ⟨hserved, allocations, h⟩ := h
          exact h.jumped (.inl ⟨hserved, hnext⟩)
      | some string =>
          refine (asmStrdup_ensures h string hkind).bind ?_
          rintro ⟨p, memory'⟩ ⟨hnull, howned, h'⟩
          exact ih p h' (hnext p hnull howned)
  | free pointer next ih =>
      rintro owned memory h ⟨hpointer, hnext⟩
      obtain ⟨memory', hfree, h'⟩ := asmFree_ok h hpointer
      rw [AsmWork.run, hfree, ok_bind]
      exact ih h' hnext
  | write pointer contents next ih =>
      rintro owned memory ⟨hserved, allocations, h⟩ ⟨hpointer, hnext⟩
      obtain ⟨memory', hwrite, hserved', h'⟩ := h.write hpointer
      rw [AsmWork.run, hwrite, ok_bind]
      exact ih ⟨hserved'.trans hserved, allocations, h'⟩ hnext
  | read pointer next ih =>
      rintro owned memory ⟨hserved, allocations, h⟩ ⟨contents, hpointer, hnext⟩
      have hblock : memory.blocks pointer = some contents := by
        have howned := h.owned pointer
        rw [hpointer] at howned
        split at howned
        · exact howned.symm
        · cases howned
      rw [AsmWork.run, hblock]
      exact ih contents ⟨hserved, allocations, h⟩ hnext

/-- What is left of the work when its binary is detached. -/
theorem Finished.detach {binary : Pointer} {size : ℕ}
    (h : Finished start base x ((binary, size), memory)) :
    ∃ memory' contents owned', asmMemoryDetach binary memory = .ok memory' ∧
      Owns start (Function.update base binary (some contents)) owned' memory' ∧
      binary ≠ null ∧ base binary = none ∧ x = .ok (contents.take size) := by
  cases h with
  | recorded holds block computed =>
      obtain ⟨memory', hdetach, h', hbase, hnull, -⟩ := asmMemoryDetach_ok holds block
      exact ⟨memory', _, _, hdetach, h', hnull, hbase, computed⟩
  | @encoded owned _ _ contents notNull fresh holds computed =>
      obtain ⟨hserved, allocations, h⟩ := holds
      have hnone : findAllocation binary allocations = none := by
        cases hfind : findAllocation binary allocations with
        | none => rfl
        | some found =>
            obtain ⟨before, allocation, after⟩ := found
            obtain ⟨rfl, rfl⟩ := findAllocation_eq_some hfind
            have hbase := (h.fresh _ (mem_records_middle.mpr (.inr (.inl rfl)))).2
            rw [Function.update_self] at hbase
            cases hbase
      refine ⟨memory, contents, owned, ?_, ⟨hserved, allocations, h⟩, notNull, fresh, ?_⟩
      · rw [asmMemoryDetach, h.context, Option.bind_some, hnone]
      · rw [computed, List.take_length]

end Work

/-! ## A whole assembly -/

/-- The assembly of a source in one of the two modes, without its memory. -/
def assembly (object : Bool) (source : CString) : Except AsmFailure Bytes :=
  if object then assembleContext source >>= asmTranslateObject true
  else do
    let context ← assembleContext source
    let labels ← asmProcessLabels context
    asmTranslate labels context.lines

/-- `zlasm_assemble_object` and `zlasm_assemble`, also of no source. -/
def zlasmAssembleMode (object : Bool) (source sourceFilename : Option CString) :
    Except ZlasmDiagnostic Bytes :=
  match source with
  | none => .error ((asmFail .invalidArgument "Source is null").report sourceFilename)
  | some source =>
      if object then zlasmAssembleObject true source sourceFilename
      else zlasmAssemble source sourceFilename

theorem zlasmAssembleMode_some (object : Bool) (source : CString) (sourceFilename : Option CString) :
    zlasmAssembleMode object (some source) sourceFilename
      = (assembly object source).mapError (AsmFailure.report sourceFilename) := by
  cases object with
  | false =>
      simp only [zlasmAssembleMode, Bool.false_eq_true, if_false, zlasmAssemble, assembly]
      split
      · rename_i heq
        rw [heq]
        rfl
      · rename_i heq
        rw [heq]
        rfl
  | true =>
      simp only [zlasmAssembleMode, if_true, zlasmAssembleObject, assembly]
      split
      · rename_i heq
        rw [heq]
        rfl
      · rename_i heq
        rw [heq]
        rfl

/-- **What an assembly comes to and does to the heap**: it adds the binary, if it succeeds, and
nothing else.  The result is that of `x` if no allocation is refused, and a failure for a refused one
otherwise. -/
inductive Balanced (x : Except ZlasmDiagnostic Bytes) (sourceFilename : Option CString)
    (memory : AsmMemory) : ZlasmResult × AsmMemory → Prop
  | binary {contents : Bytes} {binary : Pointer} {size : ℕ} {memory' : AsmMemory}
      (notNull : binary ≠ null) (fresh : memory.blocks binary = none)
      (blocks : memory'.blocks = Function.update memory.blocks binary (some contents))
      (context : memory'.context = none) (served : memory'.refusals = memory.refusals)
      (computed : x = .ok (contents.take size)) :
      Balanced x sourceFilename memory
        ({ binary, binarySize := size, diagnostic := none }, memory')
  | failed {failure : AsmFailure} {memory' : AsmMemory} (blocks : memory'.blocks = memory.blocks)
      (context : memory'.context = none) (served : memory'.refusals = memory.refusals)
      (computed : x = .error (failure.report sourceFilename)) :
      Balanced x sourceFilename memory (failedResult failure sourceFilename, memory')
  | refused {failure : AsmFailure} {memory' : AsmMemory} (blocks : memory'.blocks = memory.blocks)
      (context : memory'.context = none) (refused : memory.refusals < memory'.refusals)
      (reason : IsRefusal failure) :
      Balanced x sourceFilename memory (failedResult failure sourceFilename, memory')

section Whole

variable {libc : Libc Byte} {memory : AsmMemory}

/-- The blocks of the context and of the diagnostic, while an assembly runs. -/
structure Opened (memory : AsmMemory) (error diagnostic : Pointer) (base : Blocks Byte) : Prop where
  errorNull : error ≠ null
  diagnosticNull : diagnostic ≠ null
  distinct : diagnostic ≠ error
  errorFresh : memory.blocks error = none
  diagnosticFresh : memory.blocks diagnostic = none
  errorLive : (base error).isSome = true
  diagnosticLive : (base diagnostic).isSome = true
  frame : ∀ p, p ≠ error → p ≠ diagnostic → base p = memory.blocks p

/-- **Closing**: the two blocks are freed. -/
theorem Opened.close {error diagnostic p : Pointer} {base : Blocks Byte} {memory' : AsmMemory}
    {block : Option Bytes} (h : Opened memory error diagnostic base) (hp : p ≠ error)
    (hp' : p ≠ diagnostic) (hblocks : memory'.blocks = Function.update base p block) :
    ∃ memory₁ memory₂, memory'.free diagnostic = .ok memory₁ ∧ memory₁.free error = .ok memory₂ ∧
      memory₂.blocks = Function.update memory.blocks p block ∧
      memory₂.context = memory'.context ∧ memory₂.refusals = memory'.refusals := by
  obtain ⟨memory₁, hfree₁, hblocks₁, hcontext₁, hserved₁⟩ :=
    @AsmMemory.free_eq_ok memory' diagnostic (.inr (by
      rw [hblocks, Function.update_of_ne hp'.symm, h.diagnosticLive]))
  obtain ⟨memory₂, hfree₂, hblocks₂, hcontext₂, hserved₂⟩ :=
    @AsmMemory.free_eq_ok memory₁ error (.inr (by
      rw [hblocks₁, Function.update_of_ne h.distinct.symm, hblocks, Function.update_of_ne hp.symm,
        h.errorLive]))
  refine ⟨memory₁, memory₂, hfree₁, hfree₂, ?_, hcontext₂.trans hcontext₁,
    hserved₂.trans hserved₁⟩
  funext r
  rw [hblocks₂, hblocks₁, hblocks]
  simp only [Function.update_apply]
  by_cases herror : r = error
  · rw [if_pos herror, if_neg (herror ▸ hp.symm), herror, h.errorFresh]
  · rw [if_neg herror]
    by_cases hdiagnostic : r = diagnostic
    · rw [if_pos hdiagnostic, if_neg (hdiagnostic ▸ hp'.symm), hdiagnostic, h.diagnosticFresh]
    · rw [if_neg hdiagnostic, h.frame r herror hdiagnostic]

/-- Both blocks are there, or a call has been refused and what is there of them can be freed. -/
theorem opened_or_refused {error diagnostic : Pointer} {heap₁ heap₂ : Heap Byte}
    {contents₁ contents₂ : Bytes} (h₁ : Heap.Placed memory.toHeap contents₁ error heap₁)
    (h₂ : Heap.Placed heap₁ contents₂ diagnostic heap₂) :
    Opened memory error diagnostic heap₂.blocks ∧ heap₂.refusals = memory.refusals ∨
      (error = null ∨ diagnostic = null) ∧ memory.refusals < heap₂.refusals ∧
        Heap.Owned heap₂.blocks error ∧
        Heap.Owned (Function.update heap₂.blocks error none) diagnostic ∧
        Function.update (Function.update heap₂.blocks error none) diagnostic none
          = memory.blocks := by
  cases h₁ with
  | refused isNull₁ same₁ counted₁ =>
      have hle := h₂.refusals_le
      refine .inr ⟨.inl isNull₁, by omega, .inl isNull₁, ?_⟩
      rw [isNull₁, Heap.update_null]
      cases h₂ with
      | refused isNull₂ same₂ =>
          refine ⟨.inl isNull₂, ?_⟩
          rw [isNull₂, Heap.update_null, same₂, same₁]
      | placed notNull₂ fresh₂ block₂ =>
          refine ⟨.inr ?_, ?_⟩
          · rw [block₂, Function.update_self]
            rfl
          · rw [block₂, Function.update_idem, Function.update_eq_self_iff.mpr fresh₂.symm, same₁]
  | placed notNull₁ fresh₁ block₁ served₁ =>
      cases h₂ with
      | refused isNull₂ same₂ counted₂ =>
          refine .inr ⟨.inr isNull₂, by omega, .inr ?_, .inl isNull₂, ?_⟩
          · rw [same₂, block₁, Function.update_self]
            rfl
          · have herror : Function.update memory.blocks error none = memory.blocks :=
              Function.update_eq_self_iff.mpr fresh₁.symm
            rw [isNull₂, same₂, block₁, Function.update_idem, herror, Heap.update_null]
      | placed notNull₂ fresh₂ block₂ served₂ =>
          have hne : diagnostic ≠ error := by
            rintro rfl
            rw [block₁, Function.update_self] at fresh₂
            cases fresh₂
          have hfresh : memory.blocks diagnostic = none := by
            rwa [block₁, Function.update_of_ne hne] at fresh₂
          refine .inl ⟨⟨notNull₁, notNull₂, hne, fresh₁, hfresh, ?_, ?_, fun r hr hr' => ?_⟩,
            served₂.trans served₁⟩
          · rw [block₂, Function.update_of_ne hne.symm, block₁, Function.update_self]
            rfl
          · rw [block₂, Function.update_self]
            rfl
          · rw [block₂, Function.update_of_ne hr', block₁, Function.update_of_ne hr]

/-- **`zlasm_assemble` and `zlasm_assemble_object`**, with their memory.  If the stages use only what
is theirs, an assembly never frees or touches another block and frees all that it allocates except
for the binary.  If no allocation is refused, it has the result of the assembly without memory;
otherwise it fails, with what a refused allocation fails with. -/
theorem assembleSource_balanced {work : CString → AsmWork} {object : Bool}
    (hwork : ∀ source, (work source).Computes (assembly object source) fun _ => none)
    (libc : Libc Byte) (source sourceFilename : Option CString) (hcontext : memory.context = none) :
    ∃ result, assembleSource libc work source sourceFilename memory = .ok result ∧
      Balanced (zlasmAssembleMode object source sourceFilename) sourceFilename memory result := by
  have hplaced₁ := Heap.calloc_placed libc 0 1 asmErrorContextSize memory.toHeap
  unfold assembleSource
  generalize memory.toHeap.calloc libc 0 1 asmErrorContextSize = result₁ at hplaced₁ ⊢
  obtain ⟨error, heap₁⟩ := result₁
  have hplaced₂ := Heap.calloc_placed libc 0 1 zlasmDiagnosticSize heap₁
  dsimp only at hplaced₁ ⊢
  generalize heap₁.calloc libc 0 1 zlasmDiagnosticSize = result₂ at hplaced₂ ⊢
  obtain ⟨diagnostic, heap₂⟩ := result₂
  dsimp only at hplaced₂ ⊢
  rcases opened_or_refused hplaced₁ hplaced₂ with
    ⟨hopened, hserved⟩ | ⟨hnull, hrefused, hfree₁, hfree₂, hblocks⟩
  · rw [if_neg (not_or.mpr ⟨hopened.errorNull, hopened.diagnosticNull⟩)]
    have hnull := Heap.update_null heap₂
    have hnull' := Heap.update_null memory.toHeap
    cases source with
    | none =>
        obtain ⟨memory₁, memory₂, hfree₁, hfree₂, hblocks, hcontext', hserved'⟩ :=
          @Opened.close _ _ _ null _ { memory with toHeap := heap₂ } none hopened
            hopened.errorNull.symm hopened.diagnosticNull.symm hnull.symm
        dsimp only
        rw [hfree₁, ok_bind, hfree₂, ok_bind]
        exact ⟨_, rfl, .failed (hblocks.trans hnull') (hcontext'.trans hcontext)
          (hserved'.trans hserved) rfl⟩
    | some source =>
        have hbegin : Owns memory.refusals heap₂.blocks (fun _ => none)
            { toHeap := heap₂, context := some [] } :=
          ⟨hserved, [], rfl, List.nodup_nil, fun _ hr => absurd hr List.not_mem_nil,
            fun _ hr => absurd hr List.not_mem_nil, fun _ _ => rfl, fun _ => rfl⟩
        have hrun := @run_ensures libc _ _ _ (work source) _ _ hbegin (hwork source)
        rw [zlasmAssembleMode_some]
        dsimp only
        cases hresult : (work source).run libc { toHeap := heap₂, context := some [] } with
        | error stop =>
            obtain @⟨failure, memory', owned, allocations, hmanaged, hfailure⟩ :=
              hrun.of_eq_error hresult
            obtain ⟨memory₁, hrelease, hblocks₁, hserved₁⟩ := releaseAll_ok hmanaged
            obtain ⟨memory₂, memory₃, hfree₂, hfree₃, hblocks, hcontext', hserved₃⟩ :=
              @Opened.close _ _ _ null _ { memory₁ with context := none } none hopened
                hopened.errorNull.symm hopened.diagnosticNull.symm (hblocks₁.trans hnull.symm)
            dsimp only
            rw [asmMemoryReleaseAll, hmanaged.context]
            dsimp only
            rw [hrelease, ok_bind, hfree₂, ok_bind, hfree₃, ok_bind]
            have hrefusals : memory₃.refusals = memory'.refusals := hserved₃.trans hserved₁
            rcases hfailure with ⟨hserved', hx⟩ | ⟨hcounted, hreason⟩
            · refine ⟨_, rfl, .failed (hblocks.trans hnull') hcontext' (hrefusals.trans hserved') ?_⟩
              rw [hx]
              rfl
            · refine ⟨_, rfl, .refused (hblocks.trans hnull') hcontext' ?_ hreason⟩
              rw [hrefusals, hcounted]
              exact Nat.lt_succ_self _
        | ok result =>
            obtain ⟨⟨binary, size⟩, memory'⟩ := result
            obtain ⟨memory₁, contents, owned, hdetach, ⟨hserved₁, allocations, hmanaged⟩, hbinary,
              hfresh, hx⟩ := (hrun.of_eq_ok hresult).detach
            obtain ⟨memory₂, hrelease, hblocks₂, hserved₂⟩ := releaseAll_ok hmanaged
            have herror : binary ≠ error := by
              rintro rfl
              have hlive := hopened.errorLive
              rw [hfresh] at hlive
              cases hlive
            have hdiagnostic : binary ≠ diagnostic := by
              rintro rfl
              have hlive := hopened.diagnosticLive
              rw [hfresh] at hlive
              cases hlive
            obtain ⟨memory₃, memory₄, hfree₃, hfree₄, hblocks, hcontext', hserved₄⟩ :=
              @Opened.close _ _ _ binary _ { memory₂ with context := none } _ hopened herror
                hdiagnostic hblocks₂
            dsimp only
            rw [hdetach, ok_bind, asmMemoryReleaseAll, hmanaged.context]
            dsimp only
            rw [hrelease, ok_bind, hfree₃, ok_bind, hfree₄, ok_bind]
            refine ⟨_, rfl, .binary hbinary ?_ hblocks hcontext'
              (hserved₄.trans (hserved₂.trans hserved₁)) ?_⟩
            · rw [← hopened.frame binary herror hdiagnostic, hfresh]
            · rw [hx]
              rfl
  · obtain ⟨memory₁, herror, hblocks₁, hcontext₁, hserved₁⟩ :=
      @AsmMemory.free_eq_ok { memory with toHeap := heap₂ } error hfree₁
    obtain ⟨memory₂, hdiagnostic, hblocks₂, hcontext₂, hserved₂⟩ :=
      @AsmMemory.free_eq_ok memory₁ diagnostic (hblocks₁ ▸ hfree₂)
    rw [if_pos hnull, herror, ok_bind, hdiagnostic]
    refine ⟨_, rfl, .refused ?_ ((hcontext₂.trans hcontext₁).trans hcontext) ?_ (.inl rfl)⟩
    · rw [hblocks₂, hblocks₁]
      exact hblocks
    · rw [hserved₂, hserved₁]
      exact hrefused

end Whole

/-- A library that gives every block a new address and refuses every `n`-th call. -/
def countingLibc (n : ℕ) : Libc Byte where
  malloc call blocks _ :=
    if h : call % n ≠ 0 ∧ (blocks (call + 1)).isNone = true then
      some ⟨call + 1, Nat.succ_ne_zero call, Option.isNone_iff_eq_none.mp h.2⟩ else none
  realloc call blocks _ _ :=
    if h : call % n ≠ 0 ∧ (blocks (call + 1)).isNone = true then
      some ⟨call + 1, Nat.succ_ne_zero call, .inr (Option.isNone_iff_eq_none.mp h.2)⟩ else none
  garbage call _ := UInt8.ofNat call

/-- Stages that keep a state and a copy of the source. -/
def copyingWork (object : Bool) (source : CString) : AsmWork :=
  .malloc 64 fun state => .strdup (some source) fun _ => .realloc state 128 fun state =>
    .free state (match assembly object source with
      | .ok binary => .encode binary
      | .error failure => .fail failure)

theorem computes_copyingWork (object : Bool) (source : CString) :
    (copyingWork object source).Computes (assembly object source) fun _ => none := by
  intro state contents _ _ _ copy _ hcopy
  have hne : state ≠ copy := by
    rintro rfl
    rw [Function.update_self] at hcopy
    cases hcopy
  refine ⟨.inr ?_, fun state' _ _ _ _ => ⟨.inr ?_, ?_⟩⟩
  · rw [Function.update_of_ne hne, Function.update_self]
    rfl
  · rw [Function.update_self]
    rfl
  · cases hassembly : assembly object source with
    | ok binary => rfl
    | error failure => rfl

/-- An empty heap, after one call. -/
def emptyMemory : AsmMemory where
  calls := 1
  refusals := 0
  blocks _ := none
  null_free := rfl
  context := none

/-- Every call is served with the first library, and one is refused with the second. -/
theorem assembleSource_balanced_nop : ∃ result result',
    assembleSource (countingLibc 7) (copyingWork false) (some (CString.lit "NOP")) none emptyMemory
      = .ok result ∧
    assembleSource (countingLibc 8) (copyingWork false) (some (CString.lit "NOP")) none emptyMemory
      = .ok result' ∧
    result.2.refusals = 0 ∧ result'.2.refusals = 1 ∧
    Balanced (zlasmAssembleMode false (some (CString.lit "NOP")) none) none emptyMemory result ∧
    Balanced (zlasmAssembleMode false (some (CString.lit "NOP")) none) none emptyMemory result' := by
  obtain ⟨result, hresult, hbalanced⟩ := @assembleSource_balanced emptyMemory _ _
    (computes_copyingWork false) (countingLibc 7) (some (CString.lit "NOP")) none rfl
  obtain ⟨result', hresult', hbalanced'⟩ := @assembleSource_balanced emptyMemory _ _
    (computes_copyingWork false) (countingLibc 8) (some (CString.lit "NOP")) none rfl
  have hserved : (assembleSource (countingLibc 7) (copyingWork false) (some (CString.lit "NOP")) none
      emptyMemory).toOption.map (·.2.refusals) = some 0 := by
    decide +kernel
  have hrefused : (assembleSource (countingLibc 8) (copyingWork false) (some (CString.lit "NOP")) none
      emptyMemory).toOption.map (·.2.refusals) = some 1 := by
    decide +kernel
  rw [hresult] at hserved
  rw [hresult'] at hrefused
  exact ⟨result, result', hresult, hresult', Option.some.inj hserved, Option.some.inj hrefused,
    hbalanced, hbalanced'⟩

end Zlvm
