import IppCode.Named

namespace IppCode

/-- What an operand is: a variable, a literal of one of four types, a label or the name of a type.
-/
inductive Kind where
  | var | int | bool | string | nil | label | type
  deriving DecidableEq

namespace Kind

def all : List Kind := [var, int, bool, string, nil, label, type]

/-- The type attribute that a document gives to operands of a kind. -/
def name : Kind → Text
  | var => "var".toList
  | int => "int".toList
  | bool => "bool".toList
  | string => "string".toList
  | nil => "nil".toList
  | label => "label".toList
  | type => "type".toList

instance : Named Kind where
  all := all
  name := name
  mem_all a := by cases a <;> decide
  name_injective := by decide

end Kind

end IppCode
