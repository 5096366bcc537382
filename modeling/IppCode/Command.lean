import IppCode.Failure

namespace IppCode

/-- What a command line asks for. -/
inductive Command where
  | help
  | convert
  deriving DecidableEq

/-- The help. -/
def usage : Text :=
  "Parser for language IPPcode22

Reads an IPPcode22 program from standard input and writes its XML
representation to standard output.

Arguments:
    -h, --help  print this help

Return codes:
    10 - invalid arguments
    21 - missing IPPcode22 header
    22 - unknown operation code
    23 - other syntactic error
".toList

namespace Command

/-- The name of a long option: no dashes before it, and no value behind it. -/
def longName (option : Text) : Text := (option.dropWhile (· == '-')).takeWhile (· != '=')

/-- The meaning of a single argument: a bare `--` only ends the options, a long option counts by
its name and a short one by its first letter. -/
def ofArgument : Text → Except UsageError Command
  | ['-', '-'] => .ok .convert
  | '-' :: '-' :: option =>
      if longName option = "help".toList then .ok .help
      else .error (.unexpected ("--".toList ++ longName option))
  | '-' :: letter :: _ =>
      if letter = 'h' then .ok .help else .error (.unexpected ['-', letter])
  | argument => .error (.unexpected argument)

/-- The command a list of arguments asks for. The list starts with the name of the program. -/
def ofArgs : List Text → Except UsageError Command
  | [] | [_] => .ok .convert
  | [_, argument] => ofArgument argument
  | _ :: arguments => .error (.tooMany arguments.length)

end Command

end IppCode
