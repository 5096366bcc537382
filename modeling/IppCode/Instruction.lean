import IppCode.Operand
import IppCode.Rule
import IppCode.Statement

namespace IppCode

structure Operation where
  opcode : Opcode
  operands : List Operand
  deriving DecidableEq

/-- An operation at its place in a program. -/
structure Instruction extends Operation where
  order : Nat
  deriving DecidableEq

/-- How the operands of a statement can fail to match a known operation. -/
inductive Mismatch where
  | arity (opcode : Opcode) (expected found : Nat)
  /-- The operand at a position, counted from one, does not fit its slot. -/
  | operand (opcode : Opcode) (position : Nat) (slot : Slot) (token : Text)
  deriving DecidableEq

inductive Fault where
  | unknownOperation (name : Text)
  | mismatch (cause : Mismatch)
  deriving DecidableEq

def Mismatch.message : Mismatch → Text
  | .arity opcode expected found =>
      opcode.name ++ " takes ".toList ++ decimal expected ++ " operand(s), found ".toList ++
        decimal found
  | .operand opcode position slot token =>
      "operand ".toList ++ decimal position ++ " of ".toList ++ opcode.name ++ " must be ".toList ++
        slot.description ++ ", found ".toList ++ quoted token

def Fault.message : Fault → Text
  | .unknownOperation name => "unknown operation ".toList ++ quoted name
  | .mismatch cause => cause.message

/-- Put tokens into slots; the first of them stands at the given position. -/
def Opcode.fit (opcode : Opcode) (position : Nat) :
    List (Slot × Text) → Except Mismatch (List Operand)
  | [] => .ok []
  | (slot, token) :: rest =>
      match slot.operand? token with
      | none => .error (.operand opcode position slot token)
      | some operand =>
          match opcode.fit (position + 1) rest with
          | .error cause => .error cause
          | .ok operands => .ok (operand :: operands)

/-- The operands that tokens give under a rule. -/
def Rule.operands (rule : Rule) (tokens : List Text) : Except Mismatch (List Operand) :=
  if tokens.length = rule.arity then
    rule.opcode.fit 1 (rule.slots.zip tokens)
  else
    .error (.arity rule.opcode rule.arity tokens.length)

/-- A statement is checked in three steps, and the first that fails names the fault: its operation is
known, it has as many operands as the operation takes, and every operand fits its slot. -/
def Statement.operation (statement : Statement) : Except Fault Operation :=
  match Rule.ofSource? statement.name with
  | none => .error (.unknownOperation statement.name)
  | some rule =>
      match rule.operands statement.operands with
      | .error cause => .error (.mismatch cause)
      | .ok operands => .ok ⟨rule.opcode, operands⟩

/-- Numbers the instructions it makes. -/
structure Assembler where
  nextOrder : Nat := 1
  deriving DecidableEq

/-- Make an instruction of a statement. A statement at fault uses up no order. -/
def Assembler.assemble (assembler : Assembler) (statement : Statement) :
    Except Fault Instruction × Assembler :=
  match statement.operation with
  | .error fault => (.error fault, assembler)
  | .ok operation => (.ok ⟨operation, assembler.nextOrder⟩, ⟨assembler.nextOrder + 1⟩)

end IppCode
