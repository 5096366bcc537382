import IppCode.Command
import IppCode.Conversion

namespace IppCode

/-- The exit code of a run, and what it printed and reported. -/
structure Outcome where
  exitCode : Nat
  stdout : Bytes
  stderr : Bytes
  deriving DecidableEq

/-- A failure is reported on one line and gives the exit code. -/
def Outcome.ofConversion (conversion : Conversion) : Outcome :=
  match conversion.failure with
  | none => ⟨0, conversion.written, []⟩
  | some failure =>
      ⟨failure.exitCode, conversion.written, lineBytes ("[ERROR] ".toList ++ failure.message)⟩

/-- Arguments with the name of the program before them, standard input and standard output. -/
structure Invocation where
  args : List Text
  stdin : Source
  stdout : Sink := {}
  deriving DecidableEq

namespace Invocation

/-- The help is written to standard output as it is, a document through a buffer. -/
def conversion (invocation : Invocation) : Conversion :=
  let stdout := invocation.stdout.standardOutput
  match Command.ofArgs invocation.args with
  | .error cause => ⟨[], some (.invalidArguments cause)⟩
  | .ok .help => .ofDelivery (stdout.publish [toUtf8 usage])
  | .ok .convert => invocation.stdin.standardInput.writeTo (stdout.buffered bufferSize)

def run (invocation : Invocation) : Outcome := .ofConversion invocation.conversion

end Invocation

end IppCode
