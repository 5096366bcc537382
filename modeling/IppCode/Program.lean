import IppCode.Instruction

namespace IppCode

def language : Text := "IPPcode22".toList

/-- The first statement of every source. -/
def header : Statement := ⟨'.' :: language, []⟩

/-- Instructions in the order in which they were appended. -/
structure Program where
  instructions : Array Instruction := #[]
  deriving DecidableEq

namespace Program

/-- The language a program is written in; there is only one. -/
def language (_ : Program) : Text := IppCode.language

def append (program : Program) (instruction : Instruction) : Program :=
  ⟨program.instructions.push instruction⟩

def length (program : Program) : Nat := program.instructions.size

@[simp] theorem toList_append (program : Program) (instruction : Instruction) :
    (program.append instruction).instructions.toList =
      program.instructions.toList ++ [instruction] :=
  Array.toList_push

@[simp] theorem length_append (program : Program) (instruction : Instruction) :
    (program.append instruction).length = program.length + 1 :=
  Array.size_push instruction

end Program

end IppCode
