import IppCode.Entity
import IppCode.Slot

namespace IppCode

/-- An operand of an instruction, with its value as a document shows it. -/
structure Operand where
  kind : Kind
  value : Text
  deriving DecidableEq

/-- What is stored of a variable or literal. -/
def Kind.valueOf : Kind → Text → Text
  | .var, token => token
  | .string, token => escapeEntities (payload token)
  | _, token => payload token

/-- A variable keeps its frame, a literal loses its tag, and a string stores entities. -/
def Operand.ofToken (kind : Kind) (token : Text) : Operand := ⟨kind, kind.valueOf token⟩

/-- A token of the given kind, stored as it stands. -/
def Operand.verbatim? (kind : Kind) (token : Text) : Option Operand :=
  if kind.accepts token then some ⟨kind, token⟩ else none

/-- The operand that a token gives in a slot, if the token fits there. -/
def Slot.operand? (slot : Slot) (token : Text) : Option Operand :=
  match slot with
  | .var => Operand.verbatim? .var token
  | .label => Operand.verbatim? .label token
  | .type => Operand.verbatim? .type token
  | .symb => (classify token).map (Operand.ofToken · token)

end IppCode
