import IppCode.Opcode
import IppCode.Token

namespace IppCode

/-- The places an instruction has for its operands. -/
inductive Slot where
  | var | label | type | symb
  deriving DecidableEq

namespace Slot

/-- The kinds of operand that fit a slot, in the order in which they are tried. -/
def kinds : Slot → List Kind
  | var => [.var]
  | label => [.label]
  | type => [.type]
  | symb => [.var, .int, .bool, .string, .nil]

def description : Slot → Text
  | var => "a variable".toList
  | label => "a label".toList
  | type => "a type name".toList
  | symb => "a variable or literal".toList

/-- The kind under which a token fits a slot. -/
def kindOf? (slot : Slot) (token : Text) : Option Kind := slot.kinds.find? (·.accepts token)

theorem kindOf?_mem_kinds {slot : Slot} {token : Text} {kind : Kind}
    (h : slot.kindOf? token = some kind) : kind ∈ slot.kinds :=
  List.mem_of_find?_eq_some h

theorem accepts_of_kindOf? {slot : Slot} {token : Text} {kind : Kind}
    (h : slot.kindOf? token = some kind) : kind.accepts token := by
  simpa using List.find?_some h

theorem kindOf?_isSome_iff {slot : Slot} {token : Text} :
    (slot.kindOf? token).isSome ↔ ∃ kind ∈ slot.kinds, kind.accepts token := by
  simp [kindOf?, List.find?_isSome]

end Slot

def classify (token : Text) : Option Kind := Slot.symb.kindOf? token

namespace Opcode

/-- The operands an opcode takes, one slot each. -/
def signature : Opcode → List Slot
  | createFrame | pushFrame | popFrame | ret | brk => []
  | defVar | pops => [.var]
  | call | label | jump => [.label]
  | pushs | write => [.symb]
  | move | int2char | strlen | type | not => [.var, .symb]
  | read => [.var, .type]
  | add | sub | mul | idiv | lt | gt | eq | and | or | stri2int | concat | getChar | setChar =>
      [.var, .symb, .symb]
  | jumpIfEq | jumpIfNeq => [.label, .symb, .symb]

def arity (opcode : Opcode) : Nat := opcode.signature.length

end Opcode

end IppCode
