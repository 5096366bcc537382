import IppCode.Named

namespace IppCode

/-- The instructions of the language. -/
inductive Opcode where
  | createFrame | pushFrame | popFrame | ret | brk
  | defVar | pops
  | call | label | jump
  | pushs | write
  | move | int2char | strlen | type | not
  | read
  | add | sub | mul | idiv | lt | gt | eq | and | or | stri2int | concat | getChar | setChar
  | jumpIfEq | jumpIfNeq
  deriving DecidableEq

namespace Opcode

/-- Every opcode, grouped by the operands it takes. -/
def all : List Opcode :=
  [createFrame, pushFrame, popFrame, ret, brk, defVar, pops, call, label, jump, pushs, write, move,
    int2char, strlen, type, not, read, add, sub, mul, idiv, lt, gt, eq, and, or, stri2int, concat,
    getChar, setChar, jumpIfEq, jumpIfNeq]

def name : Opcode → Text
  | createFrame => "CREATEFRAME".toList
  | pushFrame => "PUSHFRAME".toList
  | popFrame => "POPFRAME".toList
  | ret => "RETURN".toList
  | brk => "BREAK".toList
  | defVar => "DEFVAR".toList
  | pops => "POPS".toList
  | call => "CALL".toList
  | label => "LABEL".toList
  | jump => "JUMP".toList
  | pushs => "PUSHS".toList
  | write => "WRITE".toList
  | move => "MOVE".toList
  | int2char => "INT2CHAR".toList
  | strlen => "STRLEN".toList
  | type => "TYPE".toList
  | not => "NOT".toList
  | read => "READ".toList
  | add => "ADD".toList
  | sub => "SUB".toList
  | mul => "MUL".toList
  | idiv => "IDIV".toList
  | lt => "LT".toList
  | gt => "GT".toList
  | eq => "EQ".toList
  | and => "AND".toList
  | or => "OR".toList
  | stri2int => "STRI2INT".toList
  | concat => "CONCAT".toList
  | getChar => "GETCHAR".toList
  | setChar => "SETCHAR".toList
  | jumpIfEq => "JUMPIFEQ".toList
  | jumpIfNeq => "JUMPIFNEQ".toList

instance : Named Opcode where
  all := all
  name := name
  mem_all a := by cases a <;> decide
  name_injective := by decide

/-- The opcode a source means by a word, whatever the ASCII case of its letters. -/
def ofSource? (word : Text) : Option Opcode := ofName? (word.map Char.toUpper)

end Opcode

end IppCode
