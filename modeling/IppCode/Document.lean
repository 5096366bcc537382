import IppCode.Program
import IppCode.Utf8

namespace IppCode

namespace Markup

def attr (name value : Text) : Text :=
  " ".toList ++ name ++ "=\"".toList ++ value ++ "\"".toList

def startTag (name : Text) (attrs : List (Text × Text)) : Text :=
  "<".toList ++ name ++ attrs.flatMap (fun (key, value) => attr key value) ++ ">".toList

def endTag (name : Text) : Text := "</".toList ++ name ++ ">".toList

def declaration : Text := "<?xml version=\"1.0\" encoding=\"UTF-8\"?>".toList

/-- Four blanks for every level of nesting. -/
def indent (depth : Nat) (line : Text) : Text := List.replicate (4 * depth) ' ' ++ line

end Markup

open Markup

/-- The element of an operand; its name holds the position of the operand, and the value stands in
it as it is stored. -/
def Operand.element (position : Nat) (operand : Operand) : Text :=
  let name := "arg".toList ++ decimal position
  startTag name [("type".toList, operand.kind.name)] ++ operand.value ++ endTag name

/-- One line per operand, the first of them at the given position. -/
def operandLines (position : Nat) (operands : List Operand) : List Text :=
  (operands.zipIdx position).map fun (operand, i) => indent 2 (operand.element i)

namespace Instruction

def startLine (instruction : Instruction) : Text :=
  indent 1 (startTag "instruction".toList
    [("order".toList, decimal instruction.order), ("opcode".toList, instruction.opcode.name)])

def endLine (_ : Instruction) : Text := indent 1 (endTag "instruction".toList)

def lines (instruction : Instruction) : List Text :=
  instruction.startLine :: operandLines 1 instruction.operands ++ [instruction.endLine]

end Instruction

namespace Program

/-- The declaration and the start of the root element. -/
def prologue (program : Program) : List Text :=
  [declaration, startTag "program".toList [("language".toList, program.language)]]

def epilogue (_ : Program) : List Text := [endTag "program".toList]

def lines (program : Program) : List Text :=
  program.prologue ++ program.instructions.toList.flatMap Instruction.lines ++ program.epilogue

end Program

/-- The bytes of a line, with the line feed it ends in. -/
def lineBytes (line : Text) : Bytes := toUtf8 (line ++ ['\n'])

/-- The document of a program, one element for each instruction and operand. -/
def Program.document (program : Program) : Bytes := program.lines.flatMap lineBytes

theorem Program.flatten_lines (program : Program) :
    (program.lines.map lineBytes).flatten = program.document := by
  rw [Program.document, List.flatMap_def]

end IppCode
