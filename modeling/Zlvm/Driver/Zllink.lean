import Zlvm.Driver.Zlasm
import Zlvm.Lib.Lockstep
import Zlvm.Link.Linker
import Zlvm.Program.Labels

/-!
# The linker as a program

`linker/main.c` reads object files and stores the executable that they make.

* `readFile` — a whole file at once, by its size; `readFile_eq_some`.
* `zllinkMain` — the program; `zllinkMain_wrote` — it makes one file, like the assembler.
* `compileAll` — the assembler for one source after the other; `compileAll_stored` — what it leaves.
* **`zllinkMain_builds`** — separate assembly and linking, through files, is linking the objects of
  the sources.
-/

namespace Zlvm

open CStdio Loop

/-! ## The program -/

/-- `read_file`; no data is no answer.  `emptyBlock` is whether `malloc(0)` is a block. -/
def readFile (faults : Faults CString) (emptyBlock : Bool) (files : Files CString)
    (path : CString) : Option Bytes :=
  match fopen faults files path with
  | none => none
  | some stream =>
      if !faults.seeks path then none
      else
        let size := ((files path).getD []).length
        let data := (fread stream size).1
        if size = 0 then if emptyBlock then some [] else none
        else if data.length = size then some data
        else none

/-- The number of a linker error. -/
def ZlLinkError.toNat : ZlLinkError → ℕ
  | .none => 0
  | .invalidArgument => 1
  | .outOfMemory => 2
  | .incompatibleObject => 3
  | .duplicateSymbol => 4
  | .unresolvedSymbol => 5
  | .overlap => 6
  | .overflow => 7
  | .noEntry => 8

/-- The arguments: the output, the entry symbol and the objects, or what is said about them. -/
def zllinkArguments (argv : List CString) :
    Except Bytes (CString × Option CString × List CString) :=
  let argument (index : ℕ) : CString := argv.getD index CString.empty
  if argv.length < 4 ∨ argument 1 ≠ CString.lit "-o" then
    .error (text "Usage: " ++ (argument 0).bytes
      ++ text " -o <executable> [--entry <symbol>] <object>...\n")
  else
    let named := decide (4 < argv.length ∧ argument 3 = CString.lit "--entry")
    let firstObject := if named then 5 else 3
    if firstObject = argv.length then .error (text "No object files supplied\n")
    else .ok (argument 2, if named then some (argument 4) else none, argv.drop firstObject)

/-- The loop that reads the objects. -/
def readObjects (faults : Faults CString) (emptyBlock : Bool) (files : Files CString) :
    List CString → Except Bytes (List Bytes)
  | [] => .ok []
  | path :: rest =>
      match readFile faults emptyBlock files path with
      | none => .error (complaint "Unable to read object: " path)
      | some data => do return data :: (← readObjects faults emptyBlock files rest)

/-- `main`. -/
def zllinkMain (faults : Faults CString) (emptyBlock : Bool) (alloc : LinkAllocator)
    (argv : List CString) (files : Files CString) : Ran :=
  match zllinkArguments argv with
  | .error stderr => ⟨exitFailure, stderr, files⟩
  | .ok (output, entry, paths) =>
      match readObjects faults emptyBlock files paths with
      | .error stderr => ⟨exitFailure, stderr, files⟩
      | .ok objects =>
          match zlLinkObjects alloc objects entry with
          | .error error =>
              ⟨exitFailure, text "link failed (error " ++ decimal error.toNat ++ text ")\n", files⟩
          | .ok encoded =>
              match store faults files output encoded with
              | (files, .stored) => ⟨exitSuccess, [], files⟩
              | (files, _) => ⟨exitFailure, complaint "Unable to write executable: " output, files⟩

/-! ## What the program does -/

section Main

variable {faults : Faults CString} {emptyBlock : Bool} {files : Files CString} {path : CString}

/-- **What is read is the file.** -/
theorem readFile_eq_some {data : Bytes} (h : readFile faults emptyBlock files path = some data) :
    files path = some data := by
  unfold readFile at h
  cases hfile : files path with
  | none => simp [fopen, hfile] at h
  | some bytes =>
      have hpart : ∀ stream, fopen faults files path = some stream → stream.rest <+: bytes := by
        intro stream hstream
        simp only [fopen, hfile] at hstream
        split at hstream
        · obtain rfl := Option.some.inj hstream
          cases faults.readLimit path with
          | none => exact List.prefix_rfl
          | some limit => exact List.take_prefix limit bytes
        · cases hstream
      cases hopen : fopen faults files path with
      | none => simp [hopen] at h
      | some stream =>
          simp only [hopen, hfile, Option.getD_some] at h
          split at h
          · cases h
          split at h
          · rename_i hempty
            split at h
            · rw [List.eq_nil_of_length_eq_zero hempty]
              exact congrArg some (Option.some.inj h)
            · cases h
          · split at h
            · rename_i hsize
              obtain rfl := Option.some.inj h
              have hread : (fread stream bytes.length).1 <+: bytes :=
                (List.take_prefix _ _).trans (hpart stream hopen)
              exact congrArg some (hread.eq_of_length hsize).symm
            · cases h

/-- The objects are the files. -/
theorem readObjects_eq_ok : ∀ {paths : List CString} {objects : List Bytes},
    readObjects faults emptyBlock files paths = .ok objects →
      List.Forall₂ (fun path object => files path = some object) paths objects
  | [], objects, h => by
      obtain rfl := Except.ok.inj h
      exact .nil
  | path :: rest, objects, h => by
      rw [readObjects] at h
      split at h
      · cases h
      · rename_i data hdata
        rw [bind_eq_ok] at h
        obtain ⟨later, hlater, h⟩ := h
        obtain rfl := Except.ok.inj h
        exact .cons (readFile_eq_some hdata) (readObjects_eq_ok hlater)

/-- The executable that the objects make, if they can be read and linked. -/
def linkedFiles (faults : Faults CString) (emptyBlock : Bool) (alloc : LinkAllocator)
    (files : Files CString) (entry : Option CString) (paths : List CString) : Option Bytes :=
  (readObjects faults emptyBlock files paths).toOption.bind fun objects =>
    (zlLinkObjects alloc objects entry).toOption

/-- **The linker makes one file** or refuses to. -/
theorem zllinkMain_wrote {alloc : LinkAllocator} {argv paths : List CString} {output : CString}
    {entry : Option CString} (h : zllinkArguments argv = .ok (output, entry, paths)) :
    Wrote files output (linkedFiles faults emptyBlock alloc files entry paths)
      (zllinkMain faults emptyBlock alloc argv files) := by
  rw [zllinkMain, h, linkedFiles]
  dsimp only
  cases readObjects faults emptyBlock files paths with
  | error stderr => exact .refused rfl
  | ok objects =>
      show Wrote files output (zlLinkObjects alloc objects entry).toOption _
      dsimp only
      cases zlLinkObjects alloc objects entry with
      | error error => exact .refused rfl
      | ok encoded =>
          obtain ⟨files', result, hstore, h⟩ := @store_cases _ _ faults files output encoded
          dsimp only
          rw [hstore]
          rcases h with ⟨rfl, rfl⟩ | ⟨rfl, rfl⟩ | ⟨rfl | rfl, hlimit⟩
          · exact .stored rfl
          · exact .spoiled rfl (.inl rfl)
          · exact .spoiled rfl (.inr hlimit)
          · exact .spoiled rfl (.inr hlimit)

end Main

/-! ## A build -/

/-- `zlasm -c input -o output`, for one pair after the other; no answer if one of them fails. -/
def compileAll (program : CString) (faults : Faults CString) :
    List (CString × CString) → Files CString → Option (Files CString)
  | [], files => some files
  | (input, output) :: rest, files =>
      let ran := zlasmMain faults
        [program, CString.lit "-c", input, CString.lit "-o", output] files
      if ran.status = exitSuccess then compileAll program faults rest ran.files else none

section Build

variable {faults : Faults CString} {program : CString}

/-- The assembler looks at its source only. -/
theorem assembledFile_congr {files files' : Files CString} {input : CString}
    (h : files' input = files input) (object : Bool) :
    assembledFile faults files' object input = assembledFile faults files object input := by
  rw [assembledFile, assembledFile, contents, contents, h]

/-- **What the assembler leaves** when it has been run for every source: the object of each source,
and every other file as it was.  No source is an output, and no output is written twice. -/
theorem compileAll_stored : ∀ {units : List (CString × CString)} {files files' : Files CString},
    compileAll program faults units files = some files' → (units.map Prod.snd).Nodup →
      (∀ unit ∈ units, unit.1 ∉ units.map Prod.snd) →
        (∀ path, path ∉ units.map Prod.snd → files' path = files path) ∧
          ∀ unit ∈ units, ∃ object, assembledFile faults files true unit.1 = some object ∧
            files' unit.2 = some object
  | [], files, files', h, _, _ => by
      obtain rfl := Option.some.inj h
      exact ⟨fun _ _ => rfl, fun unit hunit => absurd hunit List.not_mem_nil⟩
  | (input, output) :: rest, files, files', h, hnodup, hinputs => by
      rw [List.map_cons, List.nodup_cons] at hnodup
      rw [List.map_cons] at hinputs ⊢
      obtain ⟨hinput, hrest⟩ := List.forall_mem_cons.mp hinputs
      have hargs : zlasmArguments [program, CString.lit "-c", input, CString.lit "-o", output]
          = .ok (true, input, output) := by
        simp [zlasmArguments]
      rw [compileAll] at h
      split at h
      · rename_i hstatus
        obtain ⟨bytes, hmade, hfiles⟩ :=
          (@zlasmMain_wrote faults files output _ true input hargs).of_success hstatus
        rw [hfiles] at h
        have hother : ∀ path, path ≠ output →
            Function.update files output (some bytes) path = files path := fun path hne =>
          Function.update_of_ne hne _ _
        obtain ⟨hframe, hlater⟩ := compileAll_stored h hnodup.2 fun unit hunit hmem =>
          hrest unit hunit (List.mem_cons_of_mem _ hmem)
        constructor
        · intro path hpath
          rw [List.mem_cons, not_or] at hpath
          rw [hframe path hpath.2, hother path hpath.1]
        · refine List.forall_mem_cons.mpr ⟨⟨bytes, hmade, ?_⟩, fun unit hunit => ?_⟩
          · rw [hframe output hnodup.1, Function.update_self]
          · obtain ⟨object, hobject, hstored⟩ := hlater unit hunit
            have hne : unit.1 ≠ output := fun heq =>
              hrest unit hunit (List.mem_cons.mpr (.inl heq))
            rw [assembledFile_congr (hother unit.1 hne)] at hobject
            exact ⟨object, hobject, hstored⟩
      · cases h

/-- **Building a program** from files.  If every source has been assembled to an object file of its
own and the linker succeeds, then the executable is that of the objects of the sources, and besides
it and the object files every file is as it was. -/
theorem zllinkMain_builds {units : List (CString × CString)} {files files' : Files CString}
    {emptyBlock : Bool} {alloc : LinkAllocator} {argv : List CString} {executable : CString}
    {entry : Option CString} (hcompiled : compileAll program faults units files = some files')
    (hnodup : (units.map Prod.snd).Nodup) (hinputs : ∀ unit ∈ units, unit.1 ∉ units.map Prod.snd)
    (hargs : zllinkArguments argv = .ok (executable, entry, units.map Prod.snd))
    (hlinked : (zllinkMain faults emptyBlock alloc argv files').status = exitSuccess) :
    ∃ objects encoded,
      List.Forall₂ (fun unit object => ∃ bytes, contents faults files unit.1 = some bytes ∧
        AssemblesTo (textOf bytes) object) units objects ∧
      zlLinkObjects alloc objects entry = .ok encoded ∧
      (zllinkMain faults emptyBlock alloc argv files').files executable = some encoded ∧
      ∀ path, path ∉ executable :: units.map Prod.snd →
        (zllinkMain faults emptyBlock alloc argv files').files path = files path := by
  obtain ⟨hframe, hstored⟩ := compileAll_stored hcompiled hnodup hinputs
  obtain ⟨encoded, hmade, hfiles⟩ := (zllinkMain_wrote hargs).of_success hlinked
  rw [linkedFiles, Option.bind_eq_some_iff] at hmade
  obtain ⟨objects, hobjects, hencoded⟩ := hmade
  refine ⟨objects, encoded, ?_, toOption_eq_some.mp hencoded, ?_, fun path hpath => ?_⟩
  · have hmatch := List.forall₂_map_left_iff.mp (readObjects_eq_ok (toOption_eq_some.mp hobjects))
    refine ((List.forall₂_and_left _ _).mpr ⟨hstored, hmatch⟩).imp ?_
    rintro unit object ⟨⟨object', hassembled, hobject⟩, hfile⟩
    obtain rfl := Option.some.inj (hobject.symm.trans hfile)
    rw [assembledFile, Option.bind_eq_some_iff] at hassembled
    obtain ⟨bytes, hbytes, hassembled⟩ := hassembled
    exact ⟨bytes, hbytes, true, some unit.1, toOption_eq_some.mp hassembled⟩
  · rw [hfiles, Function.update_self]
  · rw [List.mem_cons, not_or] at hpath
    rw [hfiles, Function.update_of_ne hpath.1, hframe path hpath.2]

/-! ### An example -/

/-- A program that jumps to a label of another source. -/
def farJump : CString := CString.lit ".extern f\nstart: jmp #f"

/-- What the other source defines. -/
def farHalt : CString := CString.lit ".global f\nf: int 255"

def farJumpObject : ZlImage where
  kind := imageObject
  sections := [{ name := some (CString.lit "text"), type := sectionText, flags := 0, alignment := 1,
                 address := 0, data := .bytes [20, 0, 0, 0, 0, 0, 0, 0] }]
  symbols :=
    [{ name := some (CString.lit "start"), sectionIndex := 0, value := 0, size := 0,
       binding := symbolLocal, type := symbolFunction },
     { name := some (CString.lit "f"), sectionIndex := undefinedSection, value := 0, size := 0,
       binding := symbolGlobal, type := symbolNotype }]
  relocations := [{ sectionIndex := 0, offset := 4, type := relocationAbsolute32,
                    symbolIndex := 1, addend := 0 }]

def farHaltObject : ZlImage where
  kind := imageObject
  sections := [{ name := some (CString.lit "text"), type := sectionText, flags := 0, alignment := 1,
                 address := 0, data := .bytes [18, 0, 0, 0, 0xFF, 0, 0, 0] }]
  symbols := [{ name := some (CString.lit "f"), sectionIndex := 0, value := 0, size := 0,
                binding := symbolGlobal, type := symbolFunction }]

/-- A directory with the two sources, before and after they have been assembled. -/
def farFiles : Files CString := fun path =>
  if path = CString.lit "a.asm" then some farJump.bytes
  else if path = CString.lit "b.asm" then some farHalt.bytes
  else none

def farObjects : Files CString :=
  Function.update (Function.update farFiles (CString.lit "a.zlo") (some (serialize farJumpObject)))
    (CString.lit "b.zlo") (some (serialize farHaltObject))

def farUnits : List (CString × CString) :=
  [(CString.lit "a.asm", CString.lit "a.zlo"), (CString.lit "b.asm", CString.lit "b.zlo")]

theorem compileAll_farUnits :
    compileAll (CString.lit "zlasm") noFaults farUnits farFiles = some farObjects := by
  have hargs : ∀ unit ∈ farUnits, zlasmArguments
      [CString.lit "zlasm", CString.lit "-c", unit.1, CString.lit "-o", unit.2]
        = .ok (true, unit.1, unit.2) := by
    decide +kernel
  have hjump : assembly true farJump = .ok (serialize farJumpObject) := by decide +kernel
  have hhalt : assembly true farHalt = .ok (serialize farHaltObject) := by decide +kernel
  have hfirst := @zlasmMain_noFaults farFiles _ _ _ _ _ _ (hargs _ (.head _)) rfl hjump
  have hsecond := @zlasmMain_noFaults
    (Function.update farFiles (CString.lit "a.zlo") (some (serialize farJumpObject)))
    _ _ _ _ _ _ (hargs _ (.tail _ (.head _))) rfl hhalt
  rw [farUnits, compileAll, hfirst]
  dsimp only
  rw [if_pos rfl, compileAll, hsecond]
  rfl

theorem zllinkMain_builds_farUnits : ∃ objects encoded,
    List.Forall₂ (fun unit object => ∃ bytes, contents noFaults farFiles unit.1 = some bytes ∧
      AssemblesTo (textOf bytes) object) farUnits objects ∧
    zlLinkObjects (fun _ => true) objects none = .ok encoded ∧
    (zllinkMain noFaults true (fun _ => true)
      (["zllink", "-o", "a", "a.zlo", "b.zlo"].map CString.lit) farObjects).files (CString.lit "a")
        = some encoded ∧
    ∀ path, path ∉ CString.lit "a" :: farUnits.map Prod.snd →
      (zllinkMain noFaults true (fun _ => true)
        (["zllink", "-o", "a", "a.zlo", "b.zlo"].map CString.lit) farObjects).files path
          = farFiles path :=
  zllinkMain_builds compileAll_farUnits (by decide) (by decide) (by decide +kernel)
    (by decide +kernel)

end Build

end Zlvm
