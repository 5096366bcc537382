import IppCode.Event
import IppCode.Failure

/-!
Assembling a source. Lines are read one after the other until one of them fails or the
source ends; what has been established so far is all that one line passes on to the
next.

`Progress.advance_append` says that reading lines in two portions is reading them at
once.
-/

namespace IppCode

/-- A program under construction and the assembler that numbers its instructions. -/
structure Draft where
  assembler : Assembler := {}
  program : Program := {}
  deriving DecidableEq

/-- What the lines read so far have established. -/
structure Progress where
  line : Nat := 0
  /-- The program under construction, once the header has been found. -/
  draft : Option Draft := none
  events : Array Event := #[]
  deriving DecidableEq

namespace Progress

def takeStatement (progress : Progress) (statement : Statement) : Progress × Option Failure :=
  match progress with
  | ⟨line, none, events⟩ =>
      if statement = header then
        (⟨line + 1, some {}, events.push (.header (line + 1))⟩, none)
      else
        (progress, some .missingHeader)
  | ⟨line, some ⟨assembler, program⟩, events⟩ =>
      match assembler.assemble statement with
      | (.error fault, _) => (progress, some (.rejected (line + 1) fault))
      | (.ok instruction, next) =>
          (⟨line + 1, some ⟨next, program.append instruction⟩,
            events.push (.built (line + 1) instruction.order instruction.opcode)⟩, none)

/-- Read the next line. A line that fails leaves everything as it was. -/
def step (progress : Progress) : Reading → Progress × Option Failure
  | .error cause => (progress, some (.input cause))
  | .ok text =>
      match Statement.ofLine? text, progress with
      | none, ⟨line, draft, events⟩ =>
          (⟨line + 1, draft, events.push (.skipped (line + 1))⟩, none)
      | some statement, progress => progress.takeStatement statement

def advance (progress : Progress) : List Reading → Progress × Option Failure
  | [] => (progress, none)
  | reading :: rest =>
      match progress.step reading with
      | (next, none) => next.advance rest
      | (last, some failure) => (last, some failure)

/-- Reading lines in two portions is reading them at once, unless the first portion fails. -/
theorem advance_append (progress : Progress) (first second : List Reading) :
    progress.advance (first ++ second) =
      match progress.advance first with
      | (next, none) => next.advance second
      | (last, some failure) => (last, some failure) := by
  induction first generalizing progress with
  | nil => rfl
  | cons reading rest ih =>
      simp only [List.cons_append, advance]
      split
      · exact ih _
      · rfl

end Progress

/-- The log of a source and the program it holds, or the failure that ended its reading. -/
structure Assembly where
  events : List Event
  result : Except Failure Program

/-- The outcome of reading lines: a source that ends before its header fails too. -/
def Assembly.ofProgress : Progress × Option Failure → Assembly
  | (progress, some failure) => ⟨progress.events.toList, .error failure⟩
  | (progress, none) =>
      match progress.draft with
      | none => ⟨progress.events.toList, .error .missingHeader⟩
      | some draft =>
          ⟨(progress.events.push (.finished draft.program.length)).toList, .ok draft.program⟩

def Source.assemble (source : Source) : Assembly :=
  .ofProgress (({} : Progress).advance source.lines)

def Source.program (source : Source) : Except Failure Program := source.assemble.result

/-- The log of a source, as far as a level keeps it. -/
def Source.log (source : Source) (level : Level) : List Event :=
  source.assemble.events.filter level.keeps

end IppCode
