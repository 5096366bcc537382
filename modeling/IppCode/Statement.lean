import IppCode.Line

namespace IppCode

/-- A word that names an operation, and the words behind it. -/
structure Statement where
  name : Text
  operands : List Text
  deriving DecidableEq

namespace Statement

def ofTokens? : List Text → Option Statement
  | [] => none
  | name :: operands => some ⟨name, operands⟩

/-- The statement of a line, or nothing on a line without tokens. -/
def ofLine? (line : Text) : Option Statement := ofTokens? (Line.tokens line)

theorem ofLine?_eq_none_iff {line : Text} : ofLine? line = none ↔ Line.tokens line = [] := by
  unfold ofLine?
  cases Line.tokens line <;> simp [ofTokens?]

theorem ofLine?_eq_some_iff {line : Text} {statement : Statement} :
    ofLine? line = some statement ↔ Line.tokens line = statement.name :: statement.operands := by
  unfold ofLine?
  cases Line.tokens line with
  | nil => simp [ofTokens?]
  | cons name operands =>
      cases statement
      simp [ofTokens?]

end Statement

end IppCode
