import IppCode.Text

namespace IppCode.Line

def isTerminator (c : Char) : Bool := c == '\r' || c == '\n'

def isBlank (c : Char) : Bool := c == ' ' || c == '\t'

def commentMark : Char := '#'

/-- The line without the terminators it ends in. -/
def body (line : Text) : Text := (line.reverse.dropWhile isTerminator).reverse

/-- The part of a line before its comment. -/
def code (line : Text) : Text := (body line).takeWhile (· != commentMark)

/-- The longest pieces of the code that hold no blank. -/
def tokens (line : Text) : List Text := ((code line).splitOnP isBlank).filter (!·.isEmpty)

theorem body_append_terminator {c : Char} (h : isTerminator c) (line : Text) :
    body (line ++ [c]) = body line := by
  simp [body, h]

theorem tokens_append_terminator {c : Char} (h : isTerminator c) (line : Text) :
    tokens (line ++ [c]) = tokens line := by
  simp only [tokens, code, body_append_terminator h]

theorem tokens_dropFinal {c : Char} (h : isTerminator c) (line : Text) :
    tokens (dropFinal c line) = tokens line := by
  unfold dropFinal
  split
  · rename_i hlast
    obtain ⟨rest, rfl⟩ := List.getLast?_eq_some_iff.1 hlast
    rw [List.dropLast_concat, tokens_append_terminator h]
  · rfl

end IppCode.Line
