import IppCode.Text

namespace IppCode

/-- Put a replacement in place of every occurrence of a character. -/
def substitute (target : Char) (replacement text : Text) : Text :=
  text.flatMap fun c => if c = target then replacement else [c]

/-- Write the two angle brackets as entities and leave every other character alone. -/
def escapeEntities (text : Text) : Text :=
  substitute '>' "&gt;".toList (substitute '<' "&lt;".toList text)

theorem substitute_append (target : Char) (replacement s t : Text) :
    substitute target replacement (s ++ t) =
      substitute target replacement s ++ substitute target replacement t :=
  List.flatMap_append

theorem escapeEntities_append (s t : Text) :
    escapeEntities (s ++ t) = escapeEntities s ++ escapeEntities t := by
  simp only [escapeEntities, substitute_append]

theorem substitute_of_not_mem {target : Char} {text : Text} (h : target ∉ text)
    (replacement : Text) : substitute target replacement text = text := by
  induction text with
  | nil => rfl
  | cons c rest ih =>
      simp only [List.mem_cons, not_or] at h
      simp only [substitute, List.flatMap_cons] at ih ⊢
      simp [ih h.2, Ne.symm h.1]

theorem escapeEntities_of_not_mem {text : Text} (hlt : '<' ∉ text) (hgt : '>' ∉ text) :
    escapeEntities text = text := by
  rw [escapeEntities, substitute_of_not_mem hlt, substitute_of_not_mem hgt]

end IppCode
