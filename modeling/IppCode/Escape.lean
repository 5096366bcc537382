import IppCode.Text

namespace IppCode

/-- The codes that may be written as an escape sequence. -/
def isEscapeCode (code : Nat) : Bool := code ≤ 32 || (35 ≤ code && code ≤ 92)

/-- Three digits that spell an admissible code. -/
def isEscapeSequence (a b c : Char) : Bool :=
  [a, b, c].all Char.isDigit && isEscapeCode (Nat.ofDigitChars 10 [a, b, c] 0)

/-- Every backslash of the text starts an escape sequence. -/
def isWellEscaped : Text → Bool
  | [] => true
  | '\\' :: a :: b :: c :: rest => isEscapeSequence a b c && isWellEscaped rest
  | c :: rest => c != '\\' && isWellEscaped rest

theorem isWellEscaped_cons_of_ne {c : Char} (h : c ≠ '\\') (rest : Text) :
    isWellEscaped (c :: rest) = isWellEscaped rest := by
  rw [isWellEscaped]
  · simp [h]
  · intro a b d tail hc _
    exact h hc

/-- What follows a well escaped text is judged on its own. -/
theorem isWellEscaped_append {s : Text} (h : isWellEscaped s) (t : Text) :
    isWellEscaped (s ++ t) = isWellEscaped t := by
  fun_induction isWellEscaped s with
  | case1 => rfl
  | case2 a b c rest ih =>
      simp only [Bool.and_eq_true] at h
      simp [isWellEscaped, h.1, ih h.2]
  | case3 c rest _ ih =>
      simp only [Bool.and_eq_true, bne_iff_ne, ne_eq] at h
      rw [List.cons_append, isWellEscaped_cons_of_ne h.1, ih h.2]

end IppCode
