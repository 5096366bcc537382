import IppCode.Program

namespace IppCode

/-- How much of the log is kept. -/
inductive Level where
  | trace | debug
  deriving DecidableEq

/-- What is logged while a source is read. -/
inductive Event where
  /-- A line without tokens. -/
  | skipped (line : Nat)
  /-- The line of the header. -/
  | header (line : Nat)
  /-- The line of an instruction. -/
  | built (line order : Nat) (opcode : Opcode)
  /-- The end of a source without failure. -/
  | finished (instructions : Nat)
  deriving DecidableEq

namespace Event

def level : Event → Level
  | skipped _ | built .. => .trace
  | header _ | finished _ => .debug

def line? : Event → Option Nat
  | skipped line | header line | built line _ _ => some line
  | finished _ => none

def message : Event → Text
  | skipped line => "TRACE skipping blank line line=".toList ++ decimal line
  | header line => "DEBUG found language header line=".toList ++ decimal line
  | built line order opcode =>
      "TRACE built instruction line=".toList ++ decimal line ++ " order=".toList ++ decimal order ++
        " opcode=".toList ++ opcode.name
  | finished instructions =>
      "DEBUG translation finished instructions=".toList ++ decimal instructions

end Event

/-- The finest level keeps everything, the other one only its own events. -/
def Level.keeps : Level → Event → Bool
  | .trace, _ => true
  | .debug, event => event.level = .debug

end IppCode
