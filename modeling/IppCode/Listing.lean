import IppCode.Program
import IppCode.Utf8

namespace IppCode

/-- The token an operand is written as; literals carry the name of their kind as a tag. -/
def Operand.token (operand : Operand) : Text :=
  match operand.kind with
  | .var | .label | .type => operand.value
  | kind => kind.name ++ tagMark :: operand.value

def Instruction.statement (instruction : Instruction) : Statement :=
  ⟨instruction.opcode.name, instruction.operands.map Operand.token⟩

/-- The words of a statement, each followed by one blank. -/
def Statement.line (statement : Statement) : Text :=
  (statement.name :: statement.operands).flatMap (· ++ [' '])

/-- The canonical source of a program, one line for each instruction. -/
def Program.listing (program : Program) : Text :=
  header.name ++ '\n' ::
    program.instructions.toList.flatMap fun instruction => instruction.statement.line ++ ['\n']

end IppCode
