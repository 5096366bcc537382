import IppCode.Program
import IppCode.Source

namespace IppCode

inductive UsageError where
  | tooMany (found : Nat)
  | unexpected (argument : Text)
  deriving DecidableEq

/-- The text up to its first line feed, without a carriage return right before that. -/
def firstLine (text : Text) : Text :=
  match cutAt? '\n' text with
  | some (line, _) => dropFinal '\r' line
  | none => text

/-- A usage error in words, always on one line. -/
def UsageError.message : UsageError → Text
  | .tooMany found => "expected at most one argument, found ".toList ++ decimal found
  | .unexpected argument =>
      firstLine ("Found argument '".toList ++ argument ++
        "' which wasn't expected, or isn't valid in this context".toList)

/-- What ends a run before its time. -/
inductive Failure where
  | invalidArguments (cause : UsageError)
  | input (cause : StreamError)
  | output (cause : StreamError)
  /-- The first statement is not the header, or there is no statement at all. -/
  | missingHeader
  /-- The statement of a line, counted from one, makes no instruction. -/
  | rejected (line : Nat) (fault : Fault)
  deriving DecidableEq

namespace Failure

def message : Failure → Text
  | invalidArguments cause => "Invalid arguments: ".toList ++ cause.message
  | input cause => "Failed to read input: ".toList ++ cause.message
  | output cause => "Failed to write output: ".toList ++ cause.message
  | missingHeader => "Missing or invalid header, expected ".toList ++ quoted header.name
  | rejected line (.unknownOperation name) =>
      "line ".toList ++ decimal line ++ ": Invalid or unknown operation ".toList ++ quoted name
  | rejected line (.mismatch cause) =>
      "line ".toList ++ decimal line ++ ": Syntax error: ".toList ++ cause.message

/-- The exit code that tells failures apart. -/
def exitCode : Failure → Nat
  | invalidArguments _ => 10
  | input _ => 11
  | output _ => 12
  | missingHeader => 21
  | rejected _ (.unknownOperation _) => 22
  | rejected _ (.mismatch _) => 23

end Failure

end IppCode
