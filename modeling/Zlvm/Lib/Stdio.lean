import Mathlib.Data.List.Basic
import Mathlib.Logic.Function.Basic

/-!
# Files of the C library

What `stdio` does with whole files, over any type of paths.  Which operations fail is up to the
host, so it is a parameter; what they do when they succeed is not.

* `Files`, `Faults` — what the files hold, and when an operation on one of them fails.
* `Stream`, `fopen`, `fread` — a file that is read.
* `contents` — what a program that reads a whole file can learn; `fopen_cases` — whether it can.
* `store`, `Stored` — a file that is created, written and closed; `store_cases` — what is left of it.
-/

namespace CStdio

variable {Path : Type}

/-! ## Reading -/

/-- The bytes of every file that exists. -/
abbrev Files (Path : Type) := Path → Option (List UInt8)

/-- When the operations on a path fail.  A limit is the number of bytes that pass before the
failure; without a limit there is none. -/
structure Faults (Path : Type) where
  opens : Path → Bool
  readLimit : Path → Option ℕ
  seeks : Path → Bool
  closes : Path → Bool
  creates : Path → Bool
  writeLimit : Path → Option ℕ
  closeLimit : Path → Option ℕ

/-- A file that is open for reading: what can still be read of it, whether an error follows instead
of the end, and `ferror`. -/
structure Stream where
  rest : List UInt8
  broken : Bool
  error : Bool

/-- `fopen` for reading. -/
def fopen (faults : Faults Path) (files : Files Path) (path : Path) : Option Stream :=
  match files path with
  | none => none
  | some bytes =>
      if faults.opens path then
        some
          { rest := match faults.readLimit path with
              | none => bytes
              | some limit => bytes.take limit
            broken := (faults.readLimit path).any (· < bytes.length)
            error := false }
      else none

/-- `fread` of `size` bytes. -/
def fread (stream : Stream) (size : ℕ) : List UInt8 × Stream :=
  (stream.rest.take size,
    { stream with
      rest := stream.rest.drop size
      error := stream.error || (stream.broken && stream.rest.length < size) })

/-- What a program that reads a whole file learns, if no operation fails. -/
def contents (faults : Faults Path) (files : Files Path) (path : Path) :
    Option (List UInt8) :=
  (files path).filter fun bytes => faults.opens path && faults.closes path &&
    !(faults.readLimit path).any (· < bytes.length)

section Reading

variable {faults : Faults Path} {files : Files Path} {path : Path} {stream : Stream}

/-- A read that gets all it asks for notices nothing. -/
theorem fread_of_le {size : ℕ} (h : size ≤ stream.rest.length) :
    fread stream size = (stream.rest.take size, { stream with rest := stream.rest.drop size }) := by
  simp [fread, Nat.not_lt.mpr h]

/-- A read that gets less tells the end from an error. -/
theorem fread_of_lt {size : ℕ} (h : stream.rest.length < size) :
    fread stream size
      = (stream.rest, { stream with rest := [], error := stream.error || stream.broken }) := by
  simp [fread, h, List.take_of_length_le (Nat.le_of_lt h), Nat.le_of_lt h]

/-- What is learned is what the file holds. -/
theorem eq_some_of_contents {bytes : List UInt8} (h : contents faults files path = some bytes) :
    files path = some bytes :=
  (Option.filter_eq_some_iff.mp h).1

/-- **A file that is opened** either can be read to its end or breaks off. -/
theorem fopen_cases : (fopen faults files path = none ∧ contents faults files path = none) ∨
    (∃ bytes, fopen faults files path = some { rest := bytes, broken := false, error := false } ∧
      contents faults files path = if faults.closes path then some bytes else none) ∨
    ∃ rest, fopen faults files path = some { rest := rest, broken := true, error := false } ∧
      contents faults files path = none := by
  unfold fopen contents
  cases files path with
  | none => exact .inl ⟨rfl, rfl⟩
  | some bytes =>
      cases hopens : faults.opens path with
      | false => exact .inl ⟨rfl, by simp⟩
      | true =>
          cases hlimit : faults.readLimit path with
          | none => exact .inr (.inl ⟨bytes, rfl, by simp [Option.filter]⟩)
          | some limit =>
              by_cases hlt : limit < bytes.length
              · exact .inr (.inr ⟨bytes.take limit, by simp [hlt],
                  by simp [Option.filter, hlt]⟩)
              · exact .inr (.inl ⟨bytes, by simp [hlt, List.take_of_length_le (Nat.not_lt.mp hlt)],
                  by simp [Option.filter, hlt]⟩)

end Reading

/-! ## Writing -/

variable [DecidableEq Path]

/-- What becomes of a file that is created, written and closed. -/
inductive Stored
  | notOpened
  | notWritten
  | notClosed
  | stored
deriving DecidableEq

/-- `fopen` for writing, `fwrite` and `fclose`. -/
def store (faults : Faults Path) (files : Files Path) (path : Path) (data : List UInt8) :
    Files Path × Stored :=
  if faults.creates path then
    match (faults.writeLimit path).filter (· < data.length), faults.closeLimit path with
    | some limit, _ => (Function.update files path (some (data.take limit)), .notWritten)
    | none, some limit => (Function.update files path (some (data.take limit)), .notClosed)
    | none, none => (Function.update files path (some data), .stored)
  else (files, .notOpened)

section Writing

variable {faults : Faults Path} {files : Files Path} {path : Path} {data : List UInt8}

/-- **What is left of a file**: the data, or some first bytes of it, or what was there. -/
theorem store_cases : ∃ files' result, store faults files path data = (files', result) ∧
    ((result = .stored ∧ files' = Function.update files path (some data)) ∨
      (result = .notOpened ∧ files' = files) ∨
      ((result = .notWritten ∨ result = .notClosed) ∧ ∃ limit,
        files' = Function.update files path (some (data.take limit)))) := by
  unfold store
  split
  · split
    · rename_i limit _
      exact ⟨_, _, rfl, .inr (.inr ⟨.inl rfl, limit, rfl⟩)⟩
    · rename_i limit _ _
      exact ⟨_, _, rfl, .inr (.inr ⟨.inr rfl, limit, rfl⟩)⟩
    · exact ⟨_, _, rfl, .inl ⟨rfl, rfl⟩⟩
  · exact ⟨_, _, rfl, .inr (.inl ⟨rfl, rfl⟩)⟩

end Writing

end CStdio
